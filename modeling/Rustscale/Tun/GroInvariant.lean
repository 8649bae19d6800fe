import Rustscale.Tun.Gro

/-! What the items and outputs of the planner stand for, after any number of packets. -/
namespace Rustscale.Tun
open Octets Bytes List GroOutput Nat Option

/-- What was read of a packet is so. -/
structure IsMeta (p : List Byte) (m : TcpMeta) : Prop where
  long : 40 ≤ p.length
  short : p.length ≤ 65535
  version : tcpVersion p = some m.key.v6
  ipLen : m.ipLen = ipLenOf m.key.v6
  tcpLen : m.tcpLen = (get p (m.ipLen + 12) >>> 4).toNat * 4
  le_tcpLen : 20 ≤ m.tcpLen
  tcpLen_le : m.tcpLen ≤ 60
  length : p.length = m.ipLen + m.tcpLen + m.payload
  payload : 0 < m.payload
  flags : get p (m.ipLen + 13) = if m.psh then tcpAck ||| tcpPsh else tcpAck
  src : m.key.src = slice p (addressAt m.key.v6).1 (addressAt m.key.v6).2 ++
    replicate (16 - (addressAt m.key.v6).2) 0
  dst : m.key.dst = slice p ((addressAt m.key.v6).1 + (addressAt m.key.v6).2)
    (addressAt m.key.v6).2 ++ replicate (16 - (addressAt m.key.v6).2) 0
  srcPort : m.key.srcPort = num 2 p m.ipLen
  dstPort : m.key.dstPort = num 2 p (m.ipLen + 2)
  ack : m.key.ack = num 4 p (m.ipLen + 8)
  seq : m.seq = num 4 p (m.ipLen + 4)

theorem isMeta_of_tcpMeta {p : List Byte} {m : TcpMeta} (h : tcpMeta p = some m) : IsMeta p m := by
  simp only [tcpMeta, bind_eq_bind, bind_eq_some_iff, guard_eq_some', pure, some.injEq] at h
  obtain ⟨_, ⟨hshort, hlong⟩, v6, hv, _, ⟨⟨h20, h60⟩, hle⟩, _, hflags, _, hpay, rfl⟩ := h
  refine ⟨hlong, hshort, hv, rfl, rfl, h20, h60, ?_, ?_, ?_, rfl, rfl, rfl, rfl, rfl, rfl⟩
  · dsimp only
    omega
  · dsimp only
    omega
  · dsimp only
    rcases hflags with h | h <;> simp only [h] <;> rfl

def GroOutput.members (o : GroOutput) : List ℕ := o.head :: o.fragments.map (·.packet)

/-- The bytes of the IP header that packets must have in common to be merged. -/
def likeIp (p : List Byte) (v6 : Bool) : List Byte :=
  if v6 then [get p 0, get p 1 >>> 4, get p 7] else [get p 1, get p 6 >>> 5, get p 8]

theorem ipHeadersMatch_iff {p q : List Byte} {v6 : Bool} :
    ipHeadersMatch p q v6 = true ↔ likeIp p v6 = likeIp q v6 := by
  cases v6 <;> simp [ipHeadersMatch, likeIp]

def likeness (p : List Byte) (item : TcpItem) : List Byte × List Byte :=
  (likeIp p item.key.v6, tcpOptions p item.ipLen item.tcpLen)

/-- The place of packet `j` among the packets of an item. -/
structure Place (item : TcpItem) (j count : ℕ) (m : TcpMeta) : Prop where
  key : m.key = item.key
  tcpLen : m.tcpLen = item.tcpLen
  seq : m.seq = (item.sentSeq + j * item.gsoSize) % 2 ^ 32
  inner : j + 1 < count → m.payload = item.gsoSize ∧ m.psh = false
  last : j + 1 = count →
    m.payload ≤ item.gsoSize ∧ m.psh = item.psh ∧ item.payloadLen = j * item.gsoSize + m.payload

/-- The packets of an output continue each other, as its item says. -/
structure Merged (e : Endian) (packets : List (List Byte)) (item : TcpItem) (o : GroOutput) :
    Prop where
  place : ∀ j i, o.members[j]? = some i →
    ∃ m, tcpMeta (packetAt packets i) = some m ∧ Place item j o.members.length m
  alike : ∀ i ∈ o.members, likeness (packetAt packets i) item =
    likeness (packetAt packets o.head) item
  sentSeq : item.sentSeq < 2 ^ 32
  ipLen : item.ipLen = ipLenOf item.key.v6
  bound : item.ipLen + item.tcpLen + item.payloadLen ≤ 65535
  fragments : ∀ f ∈ o.fragments,
    f.start = item.ipLen + item.tcpLen ∧ f.stop = (packetAt packets f.packet).length
  valid : o.fragments ≠ [] → ∀ i ∈ o.members,
    tcpChecksumValid e (packetAt packets i) item.ipLen item.key.v6 = true
  iovecs : o.iovecCount ≤ maxGroIovecs

section
variable {e : Endian} {packets : List (List Byte)} {item : TcpItem} {o : GroOutput} {m : TcpMeta}
  {n : ℕ}

theorem ipLenOf_lt (v6 : Bool) : ipLenOf v6 < 2 ^ 8 := by cases v6 <;> decide

theorem IsMeta.item_eq {p : List Byte} (h : IsMeta p m) (output : ℕ) :
    m.item output = ⟨m.key, output, m.seq, m.payload, m.payload, m.ipLen, m.tcpLen, m.psh⟩ := by
  have hp := h.length
  have hs := h.short
  have h60 := h.tcpLen_le
  have hip := ipLenOf_lt m.key.v6
  have h1 : m.payload % 2 ^ 16 = m.payload := mod_eq_of_lt (by omega)
  have h2 : m.ipLen % 2 ^ 8 = m.ipLen := mod_eq_of_lt (by rw [h.ipLen]; exact hip)
  have h3 : m.tcpLen % 2 ^ 8 = m.tcpLen := mod_eq_of_lt (by omega)
  simp only [TcpMeta.item, h1, h2, h3]

theorem IsMeta.seq_lt {p : List Byte} (h : IsMeta p m) : m.seq < 2 ^ 32 := by
  rw [h.seq]
  exact num_lt 4 p _

theorem merged_single (h : tcpMeta (packetAt packets n) = some m) (header : List Byte)
    (output : ℕ) : Merged e packets (m.item output) { header, head := n, fragments := [] } := by
  have hm := isMeta_of_tcpMeta h
  have hseq := hm.seq_lt
  have hlen := hm.length
  have hshort := hm.short
  rw [hm.item_eq]
  refine ⟨?_, ?_, hseq, hm.ipLen, ?_, by simp, by simp, by simp [iovecCount, maxGroIovecs]⟩
  · intro j i hj
    obtain ⟨rfl, rfl⟩ : j = 0 ∧ n = i := by
      rcases j with - | j <;> simp [members] at hj ⊢
      exact hj
    refine ⟨m, h, rfl, rfl, ?_, fun h => ?_, fun _ => ⟨le_rfl, rfl, by simp⟩⟩
    · rw [zero_mul]
      exact (mod_eq_of_lt hseq).symm
    · simp [members] at h
  · simp [members]
  · dsimp only
    omega

theorem Merged.head_place (h : Merged e packets item o) :
    ∃ m, tcpMeta (packetAt packets o.head) = some m ∧ Place item 0 o.members.length m :=
  h.place 0 o.head rfl

theorem Merged.tcpLen_bounds (h : Merged e packets item o) :
    20 ≤ item.tcpLen ∧ item.tcpLen ≤ 60 := by
  obtain ⟨m, hm, hp⟩ := h.head_place
  have := isMeta_of_tcpMeta hm
  exact hp.tcpLen ▸ ⟨this.le_tcpLen, this.tcpLen_le⟩

theorem length_members (o : GroOutput) : o.members.length = o.fragments.length + 1 := by
  simp [members]

theorem Merged.last_place (h : Merged e packets item o) : ∃ i m,
    o.members[o.fragments.length]? = some i ∧ tcpMeta (packetAt packets i) = some m ∧
      Place item o.fragments.length o.members.length m := by
  have hlt : o.fragments.length < o.members.length := by rw [length_members]; omega
  obtain ⟨m, hm, hp⟩ := h.place _ _ (getElem?_eq_getElem hlt)
  exact ⟨_, m, getElem?_eq_getElem hlt, hm, hp⟩

theorem Merged.gsoSize_pos (h : Merged e packets item o) : 0 < item.gsoSize := by
  obtain ⟨i, m, -, hm, hp⟩ := h.last_place
  have := (hp.last (length_members o).symm).1
  exact (isMeta_of_tcpMeta hm).payload.trans_le this

/-- A packet that an output takes in. -/
structure Joins (packets : List (List Byte)) (p : List Byte) (m : TcpMeta) (item : TcpItem)
    (o : GroOutput) : Prop where
  iovecs : o.iovecCount < maxGroIovecs
  tcpLen : m.tcpLen = item.tcpLen
  likeIp : likeIp p m.key.v6 = likeIp (packetAt packets o.head) m.key.v6
  options : tcpOptions p m.ipLen m.tcpLen =
    tcpOptions (packetAt packets o.head) item.ipLen item.tcpLen
  bound : m.ipLen + m.tcpLen + item.payloadLen + m.payload ≤ 65535

theorem joins_of_checks {p : List Byte} (hm : 20 ≤ m.tcpLen) (hio : ¬o.iovecCount ≥ maxGroIovecs)
    (hhead : ¬(m.tcpLen ≠ item.tcpLen ∨
      ipHeadersMatch p (packetAt packets o.head) m.key.v6 = false ∨
      m.ipLen + m.tcpLen + item.payloadLen + m.payload > 65535))
    (hopt : ¬(m.tcpLen > 20 ∧ tcpOptions p m.ipLen m.tcpLen ≠
      tcpOptions (packetAt packets o.head) item.ipLen item.tcpLen)) :
    Joins packets p m item o := by
  simp only [not_or, not_not, Bool.not_eq_false] at hhead
  obtain ⟨hlen, hmatch, hbound⟩ := hhead
  refine ⟨by omega, hlen, ipHeadersMatch_iff.mp hmatch, ?_, by omega⟩
  rcases hm.lt_or_eq with hgt | heq
  · exact not_not.mp fun hne => hopt ⟨hgt, hne⟩
  · rw [← hlen, ← heq]
    simp [tcpOptions, slice]

/-- A packet that can join continues the item at its end or precedes it. -/
theorem canCoalesce_cases {p : List Byte} (hm : 20 ≤ m.tcpLen)
    (h : canCoalesce o p m item packets ≠ .no) : Joins packets p m item o ∧
      ((canCoalesce o p m item packets = .append ∧
        m.seq = (item.sentSeq + item.payloadLen) % 2 ^ 32 ∧ item.psh = false ∧
        item.payloadLen % item.gsoSize = 0 ∧ m.payload ≤ item.gsoSize) ∨
      (canCoalesce o p m item packets = .prepend ∧
        (m.seq + m.payload) % 2 ^ 32 = item.sentSeq ∧ m.psh = false ∧ item.gsoSize ≤ m.payload ∧
        (item.gsoSize < m.payload → o.fragments = []))) := by
  unfold canCoalesce at h ⊢
  dsimp only at h ⊢
  split_ifs at h ⊢ with hio hhead hopt hseq happ hpre hbad
  iterate 4 · exact absurd rfl h
  · refine ⟨joins_of_checks hm hio hhead hopt, .inl ⟨rfl, hseq, ?_⟩⟩
    simp only [not_or, Bool.not_eq_true, not_not] at happ
    exact ⟨happ.1, happ.2.1, by omega⟩
  · exact absurd rfl h
  · refine ⟨joins_of_checks hm hio hhead hopt, .inr ⟨rfl, hpre, ?_⟩⟩
    simp only [not_or, Bool.not_eq_true, not_and] at hbad
    refine ⟨hbad.1, by omega, fun hlt => ?_⟩
    have := hbad.2.2 hlt
    rw [iovecCount] at this
    exact length_eq_zero_iff.mp (by omega)
  · exact absurd rfl h

theorem mod_of_add_le {a b : ℕ} (h : a + b ≤ 65535) : b % 2 ^ 16 = b ∧ (a + b) % 2 ^ 16 = a + b :=
  ⟨mod_eq_of_lt (by omega), mod_eq_of_lt (by omega)⟩

theorem mergeItem_append (hbound : item.payloadLen + m.payload ≤ 65535) (hpsh : item.psh = false)
    (hsize : m.payload ≤ item.gsoSize) : mergeItem m item .append =
      { item with psh := m.psh, payloadLen := item.payloadLen + m.payload } := by
  obtain ⟨h1, h2⟩ := mod_of_add_le hbound
  simp only [mergeItem, reduceCtorEq, if_false, h1, h2, hpsh, Bool.or_false, max_eq_left hsize]

theorem mergeItem_prepend (hbound : item.payloadLen + m.payload ≤ 65535)
    (hsize : item.gsoSize ≤ m.payload) : mergeItem m item .prepend =
      { item with
        sentSeq := m.seq
        payloadLen := item.payloadLen + m.payload
        gsoSize := m.payload } := by
  obtain ⟨h1, h2⟩ := mod_of_add_le hbound
  simp only [mergeItem, if_true, h1, h2, max_eq_right hsize]

theorem Merged.payloadLen_eq (h : Merged e packets item o)
    (hmul : item.payloadLen % item.gsoSize = 0) :
    item.payloadLen = o.members.length * item.gsoSize := by
  obtain ⟨i, m, -, hm, hp⟩ := h.last_place
  obtain ⟨hle, -, hlen⟩ := hp.last (length_members o).symm
  have hpos := (isMeta_of_tcpMeta hm).payload
  have hmod : m.payload % item.gsoSize = 0 := by
    rw [← hmul, hlen, mul_add_mod']
  have hge := le_of_dvd hpos (dvd_of_mod_eq_zero hmod)
  rw [hlen, length_members, add_mul, one_mul, le_antisymm hle hge]

/-- Behind a new head, a packet is one segment of the head's size further on. -/
theorem Place.shift {j c s g : ℕ} (hp : Place item j c m) (hjc : j < c)
    (hseq : (s + g) % 2 ^ 32 = item.sentSeq) (hsize : item.gsoSize ≤ g)
    (hone : item.gsoSize < g → c = 1) :
    Place { item with
      sentSeq := s
      payloadLen := item.payloadLen + g
      gsoSize := g } (j + 1) (c + 1) m := by
  have hseq' := hp.seq
  have hinner := hp.inner
  have hlast := hp.last
  rcases hsize.lt_or_eq with hlt | rfl
  · obtain rfl : j = 0 := by
      have := hone hlt
      omega
    have hc := hone hlt
    refine ⟨hp.key, hp.tcpLen, ?_, fun h => by omega, fun _ => ?_⟩
    · dsimp only
      omega
    · obtain ⟨hle, hpsh, hlen⟩ := hlast (by omega)
      refine ⟨by dsimp only; omega, hpsh, ?_⟩
      dsimp only
      omega
  · refine ⟨hp.key, hp.tcpLen, ?_, fun h => hinner (by omega), fun h => ?_⟩
    · dsimp only
      rw [add_mul]
      omega
    · obtain ⟨hle, hpsh, hlen⟩ := hlast (by omega)
      refine ⟨hle, hpsh, ?_⟩
      dsimp only
      rw [add_mul]
      omega

section
variable (m) (item) (mode : Coalesce)

theorem mergeItem_kept : (mergeItem m item mode).key = item.key ∧
    (mergeItem m item mode).output = item.output ∧ (mergeItem m item mode).ipLen = item.ipLen ∧
    (mergeItem m item mode).tcpLen = item.tcpLen ∧
    (mergeItem m item mode).payloadLen = (item.payloadLen + m.payload % 2 ^ 16) % 2 ^ 16 := by
  unfold mergeItem
  split_ifs <;> exact ⟨rfl, rfl, rfl, rfl, rfl⟩

variable (o) (n) (packets)

theorem mergeOutput_members_perm :
    (mergeOutput o n m item mode packets).members.Perm (n :: o.members) := by
  unfold mergeOutput
  split_ifs
  · exact .refl _
  · simp only [members, map_append, map_singleton, ← cons_append]
    exact perm_append_singleton _ _

end

section
variable (h : Merged e packets item o) (hm : tcpMeta (packetAt packets n) = some m)
  (hkey : m.key = item.key)
include h hm hkey

/-- Appending a packet places its payload after those of the output. -/
theorem Merged.place_append (hj : Joins packets (packetAt packets n) m item o)
    (hseq : m.seq = (item.sentSeq + item.payloadLen) % 2 ^ 32) (hpsh : item.psh = false)
    (hmul : item.payloadLen % item.gsoSize = 0) (hsize : m.payload ≤ item.gsoSize) {j i : ℕ}
    (hji : (o.members ++ [n])[j]? = some i) : ∃ m', tcpMeta (packetAt packets i) = some m' ∧
      Place (mergeItem m item .append) j (o.members.length + 1) m' := by
  have hb := hj.bound
  have hlast := h.payloadLen_eq hmul
  rw [mergeItem_append (by omega) hpsh hsize]
  rcases lt_or_ge j o.members.length with hlt | hge
  · -- a packet that was there: the last one now has a successor
    rw [getElem?_append_left hlt] at hji
    obtain ⟨m', hm', hp⟩ := h.place j i hji
    refine ⟨m', hm', hp.key, hp.tcpLen, hp.seq, fun _ => ?_, fun _ => by omega⟩
    rcases lt_or_ge (j + 1) o.members.length with hlt' | hge'
    · exact hp.inner hlt'
    · have hje : j + 1 = o.members.length := by omega
      obtain ⟨-, hpsh', hlen'⟩ := hp.last hje
      rw [hlast, ← hje, add_mul, one_mul] at hlen'
      exact ⟨by dsimp only; omega, hpsh'.trans hpsh⟩
  · rw [getElem?_append_right hge, getElem?_singleton] at hji
    split_ifs at hji with hjn
    obtain rfl := some.inj hji
    obtain rfl : j = o.members.length := by omega
    refine ⟨m, hm, hkey, hj.tcpLen, ?_, fun hlt => by omega, fun _ => ⟨hsize, rfl, ?_⟩⟩
    · rw [hseq, hlast]
    · dsimp only
      rw [hlast]

theorem Merged.place_prepend (hj : Joins packets (packetAt packets n) m item o)
    (hseq : (m.seq + m.payload) % 2 ^ 32 = item.sentSeq) (hpsh : m.psh = false)
    (hsize : item.gsoSize ≤ m.payload) (hsingle : item.gsoSize < m.payload → o.fragments = [])
    {j i : ℕ} (hji : (n :: o.members)[j]? = some i) :
    ∃ m', tcpMeta (packetAt packets i) = some m' ∧
      Place (mergeItem m item .prepend) j (o.members.length + 1) m' := by
  have hb := hj.bound
  have hlen := length_members o
  rw [mergeItem_prepend (by omega) hsize]
  rcases j with - | j
  · obtain rfl : n = i := by simpa using hji
    refine ⟨m, hm, hkey, hj.tcpLen, ?_, fun _ => ⟨rfl, hpsh⟩, fun hlast => by omega⟩
    rw [zero_mul]
    exact (mod_eq_of_lt (isMeta_of_tcpMeta hm).seq_lt).symm
  · rw [getElem?_cons_succ] at hji
    obtain ⟨m', hm', hp⟩ := h.place j i hji
    exact ⟨m', hm', hp.shift (List.getElem?_eq_some_iff.mp hji).1 hseq hsize fun hlt => by
      rw [hlen, hsingle hlt, length_nil]⟩

/-- Merging a packet that can join keeps the output a merge of its members. -/
theorem Merged.merge {mode : Coalesce} (hmode : canCoalesce o (packetAt packets n) m item packets = mode)
    (hne : mode ≠ .no) (hhead : o.fragments = [] →
      tcpChecksumValid e (packetAt packets o.head) item.ipLen item.key.v6 = true)
    (hvalid : tcpChecksumValid e (packetAt packets n) m.ipLen m.key.v6 = true) :
    Merged e packets (mergeItem m item mode) (mergeOutput o n m item mode packets) := by
  have hmeta := isMeta_of_tcpMeta hm
  obtain ⟨hj, hcases⟩ := canCoalesce_cases hmeta.le_tcpLen (hmode ▸ hne)
  rw [hmode] at hcases
  have hip : m.ipLen = item.ipLen := by rw [hmeta.ipLen, h.ipLen, hkey]
  have hb := hj.bound
  have hio := hj.iovecs
  obtain ⟨hkey', -, hip', hlen', hpay'⟩ := mergeItem_kept item m mode
  have hmem : ∀ i ∈ (mergeOutput o n m item mode packets).members, i = n ∨ i ∈ o.members :=
    fun i hi => mem_cons.mp ((mergeOutput_members_perm packets item o m n mode).mem_iff.mp hi)
  have halike : ∀ i ∈ (mergeOutput o n m item mode packets).members,
      likeness (packetAt packets i) item = likeness (packetAt packets o.head) item := by
    intro i hi
    rcases hmem i hi with rfl | hi
    · rw [likeness, ← hkey, ← hip, ← hj.tcpLen, hj.likeIp, hj.options, likeness, hkey]
    · exact h.alike i hi
  refine ⟨?_, ?_, ?_, ?_, ?_, ?_, ?_, ?_⟩
  · intro j i hji
    rw [(mergeOutput_members_perm packets item o m n mode).length_eq, length_cons]
    rcases hcases with ⟨rfl, hseq, hpsh, hmul, hsize⟩ | ⟨rfl, hseq, hpsh, hsize, hsingle⟩
    · exact h.place_append hm hkey hj hseq hpsh hmul hsize (by simpa [mergeOutput, members] using hji)
    · exact h.place_prepend hm hkey hj hseq hpsh hsize hsingle
        (by simpa [mergeOutput, members] using hji)
  · intro i hi
    simp only [likeness, hkey', hip', hlen']
    exact (halike i hi).trans (halike _ mem_cons_self).symm
  · unfold mergeItem
    split_ifs
    · exact hmeta.seq_lt
    · exact h.sentSeq
  · rw [hip', hkey', h.ipLen]
  · rw [hip', hlen', hpay', ← hip, ← hj.tcpLen]
    have := mod_le (item.payloadLen + m.payload % 2 ^ 16) (2 ^ 16)
    have := mod_le m.payload (2 ^ 16)
    omega
  · intro f hf
    rw [hip', hlen']
    rcases hcases with ⟨rfl, -⟩ | ⟨rfl, -⟩
    · rcases mem_append.mp hf with hf | hf
      · exact h.fragments f hf
      · obtain rfl := mem_singleton.mp hf
        dsimp only
        rw [← hip, ← hj.tcpLen]
        exact ⟨rfl, hmeta.length.symm⟩
    · rcases mem_cons.mp hf with rfl | hf
      · exact ⟨rfl, rfl⟩
      · exact h.fragments f hf
  · intro _ i hi
    rw [hip', hkey']
    rcases hmem i hi with rfl | hi
    · rw [← hip, ← hkey]
      exact hvalid
    · by_cases hf : o.fragments = []
      · have : i = o.head := by simpa [members, hf] using hi
        exact this ▸ hhead hf
      · exact h.valid hf i hi
  · rcases hcases with ⟨rfl, -⟩ | ⟨rfl, -⟩ <;>
      simp only [iovecCount, mergeOutput, reduceCtorEq, if_true, if_false, length_append,
        length_cons, length_nil] at hio ⊢ <;> omega

end

end

end Rustscale.Tun
