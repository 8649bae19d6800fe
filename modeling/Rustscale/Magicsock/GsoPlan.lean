import Rustscale.Magicsock.UdpBatch

/-! Segmentation offload is transparent: cutting the planned messages gives the datagrams back. -/
namespace Rustscale.UdpBatch
open Octets Chunks List PlannedMessage UdpBatch Nat
open Udprelay (SocketAddr)

section
variable {never : Bool} {maxDatagrams payload segmentLen : ℕ}

/-- The datagrams that one pass of the planner takes into a message. -/
structure Coalesced (never : Bool) (maxDatagrams payload segmentLen : ℕ) (count total : ℕ)
    (taken : List (List Byte)) (hasSmallerTail : Bool) : Prop where
  pieces : Pieces segmentLen taken
  equal : hasSmallerTail = false → ∀ d ∈ taken, d.length = segmentLen
  eligible : taken ≠ [] → 1 ≤ segmentLen ∧ segmentLen ≤ 65535
  room : taken ≠ [] → count + taken.length ≤ maxDatagrams ∧ total + taken.flatten.length ≤ payload
  sentinel : never = true → ∀ d ∈ taken, 1 < d.length

theorem coalesced_nil {count total : ℕ} {hasSmallerTail : Bool} :
    Coalesced never maxDatagrams payload segmentLen count total [] hasSmallerTail :=
  ⟨trivial, by simp, by simp, by simp, by simp⟩

/-- The loop takes a first part of the datagrams, within the limits. -/
theorem coalesce_spec (never : Bool) (maxDatagrams payload segmentLen : ℕ)
    (rest : List (List Byte)) : ∀ (count total : ℕ) (hasSmallerTail : Bool),
    ∃ k ≤ rest.length, (coalesce never maxDatagrams payload segmentLen rest count total
        hasSmallerTail).1 = count + k ∧
      Coalesced never maxDatagrams payload segmentLen count total (rest.take k)
        (coalesce never maxDatagrams payload segmentLen rest count total hasSmallerTail).2 := by
  induction rest with
  | nil => exact fun count total tail => ⟨0, le_rfl, rfl, coalesced_nil⟩
  | cons next rest ih =>
    intro count total tail
    rw [coalesce]
    split
    · next hgo =>
      obtain ⟨hcount, htail, hlow, hhigh⟩ := hgo
      dsimp only
      split
      · exact ⟨0, zero_le _, rfl, coalesced_nil⟩
      · next hfits =>
        simp only [not_or, not_lt, Bool.not_eq_false] at hfits
        obtain ⟨hpos, hle, htotal, hsentinel⟩ := hfits
        have hlong : never = true → 1 < next.length := by
          rintro rfl
          simpa [neverGsoEqualTailSentinel] using hsentinel
        rcases hle.lt_or_eq with hlt | heq
        · -- a shorter datagram ends the message
          refine ⟨1, by simp, ?_⟩
          have hstop : coalesce never maxDatagrams payload segmentLen rest (count + 1)
              (total + next.length) (next.length < segmentLen) = (count + 1, true) := by
            rw [decide_eq_true hlt]
            cases rest with
            | nil => rfl
            | cons e rest => rw [coalesce, if_neg (by simp)]
          rw [hstop]
          refine ⟨rfl, ⟨⟨pos_of_ne_zero hpos, hle⟩, by simp, fun _ => ⟨hlow, hhigh⟩, fun _ => ?_,
            fun hnever d hd => ?_⟩⟩
          · simpa using ⟨hcount, htotal⟩
          · obtain rfl : d = next := by simpa using hd
            exact hlong hnever
        · obtain ⟨k, hk, hcount', hc⟩ := ih (count + 1) (total + next.length) (next.length < segmentLen)
          refine ⟨k + 1, succ_le_succ hk, by rw [hcount']; omega, ?_⟩
          rw [take_succ_cons]
          refine ⟨hc.pieces.cons hlow heq, fun h d hd => ?_, fun _ => ⟨hlow, hhigh⟩, fun _ => ?_,
            fun hnever d hd => ?_⟩
          · exact (mem_cons.mp hd).elim (fun he => he ▸ heq) (hc.equal h d)
          · by_cases hmore : rest.take k = []
            · simpa [hmore] using ⟨hcount, htotal⟩
            · have := hc.room hmore
              simp only [length_cons, flatten_cons, length_append]
              omega
          · exact (mem_cons.mp hd).elim (fun he => he ▸ hlong hnever) (hc.sentinel hnever d)
    · exact ⟨0, zero_le _, rfl, coalesced_nil⟩

end

/-- A message stands for datagrams that its segments give back. -/
structure Sound (addr : SocketAddr) (never : Bool) (m : PlannedMessage) (ds : List (List Byte)) :
    Prop where
  nonempty : ds ≠ []
  count : m.datagrams = ds.length
  single : ds.length = 1 → m.segmentSize = none
  pieces : 1 < ds.length → ∃ size, m.segmentSize = some size ∧ 0 < size ∧
    Pieces size (ds ++ m.sentinel) ∧ (ds ++ m.sentinel).flatten.length ≤ maxPayload addr
  segments : (ds ++ m.sentinel).length ≤ maxGsoSegments
  sentinel : m.appendSentinel = true → never = true ∧ ∃ size, m.segmentSize = some size ∧
    neverGsoEqualTailSentinel.length < size

def limits (addr : SocketAddr) (never : Bool) : ℕ × ℕ :=
  if never then (maxGsoSegments - 1, maxPayload addr - neverGsoEqualTailSentinel.length)
  else (maxGsoSegments, maxPayload addr)

variable {addr : SocketAddr} {never : Bool} {m : PlannedMessage} {ds datagrams : List (List Byte)}

/-- The limits of the loop leave room for the sentinel. -/
theorem limits_sentinel (addr : SocketAddr) (h : m.appendSentinel = true → never = true) :
    (limits addr never).1 + m.sentinel.length ≤ maxGsoSegments ∧
      (limits addr never).2 + m.sentinel.flatten.length ≤ maxPayload addr := by
  have hmax : 1 ≤ maxPayload addr := by
    cases addr <;> simp [maxPayload, maxIpv4Payload, maxIpv6Payload]
  rw [sentinel]
  split
  · next happend =>
    simp only [h happend, limits, neverGsoEqualTailSentinel, maxGsoSegments, if_true,
      length_singleton, flatten_singleton]
    omega
  · cases never <;> simp [limits, maxGsoSegments]

/-- A message of coalesced datagrams splits back into them. -/
theorem sound_of_coalesced {datagram : List Byte} {taken : List (List Byte)} {hasSmallerTail : Bool}
    (h : Coalesced never (limits addr never).1 (limits addr never).2 datagram.length 1 datagram.length
      taken hasSmallerTail) (hcount : m.datagrams = 1 + taken.length)
    (hsize : m.segmentSize = if 1 < 1 + taken.length ∧ 1 ≤ datagram.length ∧ datagram.length ≤ 65535
      then some (datagram.length % 2 ^ 16) else none)
    (hsentinel : m.appendSentinel = (never && m.segmentSize.isSome && !hasSmallerTail)) :
    Sound addr never m (datagram :: taken) := by
  by_cases hnil : taken = []
  · have hnone : m.segmentSize = none := by simpa [hnil] using hsize
    have happend : m.appendSentinel = false := by simp [hsentinel, hnone]
    exact ⟨by simp, by simp [hcount, hnil], fun _ => hnone, by simp [hnil],
      by simp [hnil, sentinel, happend, maxGsoSegments], by simp [happend]⟩
  · obtain ⟨hlow, hhigh⟩ := h.eligible hnil
    obtain ⟨hsegments, hpayload⟩ := h.room hnil
    have hpos := length_pos_iff.mpr hnil
    have hsome : m.segmentSize = some datagram.length := by
      rw [hsize, if_pos ⟨by omega, hlow, hhigh⟩, mod_eq_of_lt (by omega)]
    have hpieces := h.pieces.cons hlow rfl
    have hsent : m.appendSentinel = (never && !hasSmallerTail) := by simp [hsentinel, hsome]
    have hshort : m.appendSentinel = true → never = true ∧ 1 < datagram.length := by
      intro happend
      rw [hsent, Bool.and_eq_true, Bool.not_eq_true'] at happend
      obtain ⟨d, hd⟩ := exists_mem_of_ne_nil taken hnil
      exact ⟨happend.1, h.equal happend.2 d hd ▸ h.sentinel happend.1 d hd⟩
    have hlimits := limits_sentinel addr fun happend => (hshort happend).1
    refine ⟨by simp, by rw [hcount, length_cons, add_comm], ?_, fun _ => ?_, ?_, ?_⟩
    · intro hone
      simp only [length_cons] at hone
      omega
    · refine ⟨datagram.length, hsome, hlow, ?_, ?_⟩
      · rw [sentinel]
        split
        · next happend =>
          obtain ⟨hnever, hlt⟩ := hshort happend
          rw [hsent, Bool.and_eq_true, Bool.not_eq_true'] at happend
          refine Pieces.concat hlow (fun d hd => ?_) (by simp [neverGsoEqualTailSentinel]) hlt.le
          exact (mem_cons.mp hd).elim (fun he => he ▸ rfl) (h.equal happend.2 d)
        · rwa [append_nil]
      · simp only [flatten_append, flatten_cons, length_append]
        omega
    · simp only [length_append, length_cons]
      omega
    · intro happend
      exact ⟨(hshort happend).1, _, hsome, (hshort happend).2⟩

/-- Messages take the datagrams of a batch one after another. -/
inductive Covers (addr : SocketAddr) (never : Bool) :
    ℕ → List PlannedMessage → List (List Byte) → Prop
  | nil (first : ℕ) : Covers addr never first [] []
  | cons {first : ℕ} {m : PlannedMessage} {messages : List PlannedMessage}
      {ds rest : List (List Byte)} (number : m.first = first) (sound : Sound addr never m ds)
      (covers : Covers addr never (first + ds.length) messages rest) :
      Covers addr never first (m :: messages) (ds ++ rest)

/-- The planned messages cover the datagrams in order. -/
theorem planFrom_covers (addr : SocketAddr) (never : Bool) (first : ℕ) (ds : List (List Byte)) :
    Covers addr never first (planFrom addr never first ds) ds := by
  fun_induction planFrom addr never first ds with
  | case1 first => exact .nil first
  | case2 first datagram rest segmentLen maxDatagrams payload hlimits count hasSmallerTail hc
      segmentSize ih =>
    have hlimits' : limits addr never = (maxDatagrams, payload) := hlimits
    obtain ⟨k, hk, hcount, hcoalesced⟩ := coalesce_spec never maxDatagrams payload segmentLen rest
      1 segmentLen false
    rw [hc] at hcount hcoalesced
    dsimp only at hcount hcoalesced
    have hlen : (rest.take k).length = k := length_take_of_le hk
    have hrest : datagram :: rest = (datagram :: rest.take k) ++ rest.drop (count - 1) := by
      rw [hcount, Nat.add_sub_cancel_left, cons_append, take_append_drop]
    rw [hrest]
    refine .cons rfl (sound_of_coalesced (by rw [hlimits']; exact hcoalesced) ?_ ?_ rfl) ?_
    · rw [hlen, hcount]
    · rw [hlen, ← hcount]
      rfl
    · rw [length_cons, hlen, add_comm k 1, ← hcount]
      exact ih

section
variable {addr : SocketAddr} {never : Bool} {first : ℕ} {messages : List PlannedMessage}
  {ds : List (List Byte)}

section
variable (h : Covers addr never first messages ds)
include h

theorem Covers.length_le : messages.length ≤ ds.length := by
  induction h with
  | nil => exact le_rfl
  | cons number sound covers ih =>
    have := length_pos_iff.mpr sound.nonempty
    rw [length_cons, length_append]
    omega

section
variable {datagrams : List (List Byte)} (hds : datagrams.drop first = ds)
include hds

theorem Covers.sound : ∀ m ∈ messages, Sound addr never m (m.slice datagrams) := by
  induction h with
  | nil => simp
  | @cons first m messages ds rest number sound covers ih =>
    intro m' hm'
    rcases mem_cons.mp hm' with rfl | hm'
    · have hslice : m'.slice datagrams = ds := by
        rw [slice, number, hds, sound.count, take_left]
      rwa [hslice]
    · refine ih ?_ m' hm'
      rw [← drop_drop, hds, drop_left]

/-- The first messages take the first datagrams, each once and in order. -/
theorem Covers.take (k : ℕ) : (messages.take k).flatMap (·.slice datagrams) =
        ds.take ((messages.take k).map PlannedMessage.datagrams).sum ∧
      ((messages.take k).map PlannedMessage.datagrams).sum ≤ ds.length := by
  induction h generalizing k with
  | nil => simp
  | @cons first m messages ds rest number sound covers ih =>
    cases k with
    | zero => simp
    | succ k =>
      have hslice : m.slice datagrams = ds := by
        rw [slice, number, hds, sound.count, take_left]
      obtain ⟨htake, hle⟩ := ih (by rw [← drop_drop, hds, drop_left]) k
      rw [take_succ_cons, flatMap_cons, map_cons, sum_cons, hslice, htake,
        sound.count, length_append, take_length_add_append]
      exact ⟨rfl, by omega⟩

end

theorem Covers.first_eq {k : ℕ} {m : PlannedMessage} (hm : messages[k]? = some m) :
    m.first = first + ((messages.take k).map PlannedMessage.datagrams).sum := by
  induction h generalizing k with
  | nil => simp at hm
  | @cons first m' messages ds rest number sound covers ih =>
    cases k with
    | zero =>
      cases hm
      simpa using number
    | succ k =>
      rw [take_succ_cons, map_cons, sum_cons, sound.count, ← add_assoc]
      exact ih hm

theorem Covers.sum : (messages.map PlannedMessage.datagrams).sum = ds.length := by
  induction h with
  | nil => rfl
  | cons number sound covers ih =>
    rw [map_cons, sum_cons, ih, sound.count, length_append]

end

end

section
variable (h : Sound addr never m ds)
include h

theorem Sound.sentinel_single (hone : ds.length = 1) : m.sentinel = [] := by
  rw [PlannedMessage.sentinel, if_neg]
  intro happend
  obtain ⟨-, size, hsize, -⟩ := h.sentinel happend
  rw [h.single hone] at hsize
  cases hsize

theorem Sound.cases : (∃ d, ds ++ m.sentinel = [d] ∧ m.segmentSize = none) ∨
      ∃ size, m.segmentSize = some size ∧ 0 < size ∧ Pieces size (ds ++ m.sentinel) ∧
        (ds ++ m.sentinel).flatten.length ≤ maxPayload addr := by
  rcases lt_or_ge 1 ds.length with hmany | hone
  · exact .inr (h.pieces hmany)
  · have hlen : ds.length = 1 := le_antisymm hone (length_pos_iff.mpr h.nonempty)
    obtain ⟨d, rfl⟩ := length_eq_one_iff.mp hlen
    exact .inl ⟨d, by rw [h.sentinel_single hlen, append_nil], h.single hlen⟩

theorem Sound.kernelSegments :
    kernelSegments m.segmentSize (ds ++ m.sentinel).flatten = ds ++ m.sentinel := by
  rcases h.cases with ⟨d, hd, hnone⟩ | ⟨size, hsize, hpos, hpieces, -⟩
  · simp [UdpBatch.kernelSegments, hd, hnone]
  · rw [hsize]
    simp only [UdpBatch.kernelSegments, divCeil]
    rw [hpieces.div_ceil hpos, chunks_flatten hpieces]

end

theorem splitSegments_eq_chunks (size : ℕ) (data : List Byte) (segments : ℕ) : ∀ start,
    splitSegments (some size) data segments start = chunks size segments (data.drop start) := by
  induction segments with
  | zero => exact fun _ => rfl
  | succ segments ih =>
    intro start
    rw [splitSegments, chunks, ih]
    rw [drop_drop]
    rcases le_total (start + size) data.length with hle | hle
    · rw [Nat.min_eq_left hle, Nat.add_sub_cancel_left]
    · rw [min_eq_right hle, drop_length, drop_eq_nil_of_le hle,
        ← length_drop, take_length, take_of_length_le]
      rw [length_drop]
      omega

def PlannedMessage.received (m : PlannedMessage) (datagrams : List (List Byte)) (source : SocketAddr) :
    GroMessage :=
  ⟨(m.iovecs datagrams).flatten, false, source, m.segmentSize⟩

/-- The receiver's split of a message gives its datagrams back. -/
theorem Sound.splitSegments (h : Sound addr never m ds) :
    groSegments m.segmentSize (ds ++ m.sentinel).flatten.length = .ok (ds ++ m.sentinel).length ∧
    splitSegments m.segmentSize (ds ++ m.sentinel).flatten (ds ++ m.sentinel).length 0 =
      ds ++ m.sentinel := by
  have hsegments := h.segments
  rcases h.cases with ⟨d, hd, hnone⟩ | ⟨size, hsize, hpos, hpieces, -⟩
  · simp [hd, hnone, groSegments, UdpBatch.splitSegments]
  · have hcount : divCeil (ds ++ m.sentinel).flatten.length size = _ := hpieces.div_ceil hpos
    have hnonempty : 0 < (ds ++ m.sentinel).length :=
      length_pos_iff.mpr (append_ne_nil_of_left_ne_nil h.nonempty _)
    have hlen : (ds ++ m.sentinel).flatten.length ≠ 0 := by
      intro hzero
      rw [hzero, divCeil, div_eq_of_lt (by omega)] at hcount
      omega
    rw [hsize]
    constructor
    · rw [groSegments, validateGroSegments, if_neg hlen, hcount, if_neg (not_lt.mpr hsegments)]
    · rw [splitSegments_eq_chunks, drop_zero, chunks_flatten hpieces]

/-- The receiver recovers the datagrams of every message. -/
theorem splitGroTail_received (ms : List (PlannedMessage × SocketAddr)) :
    ∀ (output : List (List Byte × SocketAddr)),
      (∀ r ∈ ms, Sound addr never r.1 (r.1.slice datagrams) ∧
        (r.1.iovecs datagrams).flatten.length ≤ groPacketCapacity) →
      output.length + ms.length * maxGsoSegments ≤ maxBatch →
      splitGroTail output (ms.map fun r => r.1.received datagrams r.2) =
        .ok (output ++ ms.flatMap fun r => (r.1.iovecs datagrams).map (·, r.2)) := by
  induction ms with
  | nil => simp [splitGroTail]
  | cons r ms ih =>
    intro output h hroom
    obtain ⟨hsound, hcapacity⟩ := h r mem_cons_self
    obtain ⟨hsegments, hsplit⟩ := hsound.splitSegments
    have hle := hsound.segments
    rw [length_cons, succ_mul] at hroom
    have hvalid : validateMessage (r.1.received datagrams r.2) groPacketCapacity = .ok () :=
      if_neg (not_lt.mpr hcapacity)
    have hcount : groSegments (r.1.received datagrams r.2).groSize
        (r.1.received datagrams r.2).data.length = .ok (r.1.iovecs datagrams).length := hsegments
    rw [map_cons, splitGroTail, hvalid, hcount]
    change (if maxBatch < output.length + (r.1.iovecs datagrams).length then _ else
      splitGroTail (output ++ (splitSegments r.1.segmentSize (r.1.iovecs datagrams).flatten
        (r.1.iovecs datagrams).length 0).map (·, r.2)) _) = _
    have hle' : (r.1.iovecs datagrams).length ≤ maxGsoSegments := hle
    have hroom' : (output ++ (r.1.iovecs datagrams).map (·, r.2)).length +
        ms.length * maxGsoSegments ≤ maxBatch := by
      rw [length_append, length_map]
      omega
    have hbuffers : splitSegments r.1.segmentSize (r.1.iovecs datagrams).flatten
      (r.1.iovecs datagrams).length 0 = r.1.iovecs datagrams := hsplit
    rw [if_neg (by omega), hbuffers, ih _ (fun q hq => h q (mem_cons_of_mem _ hq)) hroom',
      flatMap_cons, append_assoc]

/-- Small batches are not put together if the mitigation is on. -/
def submitted (addr : SocketAddr) (datagrams : List (List Byte)) (never : Bool) :
    List PlannedMessage :=
  if never = true ∧ datagrams.length < sentinelTailBatchThreshold then
    (range' 0 datagrams.length).map fun i => ⟨i, 1, none, false⟩
  else plan addr datagrams never

def PlannedMessage.hdr (m : PlannedMessage) (datagrams : List (List Byte)) : MmsgHdr :=
  ⟨m.iovecs datagrams, m.segmentSize⟩

theorem covers_singles (addr : SocketAddr) (never : Bool) (ds : List (List Byte)) : ∀ first,
    Covers addr never first ((range' first ds.length).map fun i => ⟨i, 1, none, false⟩) ds := by
  induction ds with
  | nil => exact fun first => .nil first
  | cons d ds ih =>
    intro first
    rw [length_cons, range'_succ, map_cons]
    exact @Covers.cons addr never first _ _ [d] ds rfl ⟨by simp, rfl, fun _ => rfl, by simp,
      by simp [sentinel, maxGsoSegments], by simp⟩ (ih (first + 1))

theorem submitted_covers (addr : SocketAddr) (datagrams : List (List Byte)) (never : Bool) :
    Covers addr never 0 (submitted addr datagrams never) datagrams := by
  unfold submitted
  split
  · exact covers_singles addr never datagrams 0
  · exact planFrom_covers addr never 0 datagrams

theorem hdr_singles (datagrams : List (List Byte)) :
    ((range' 0 datagrams.length).map fun i => mk i 1 none false).map
      (·.hdr datagrams) = datagrams.map fun datagram => ⟨[datagram], none⟩ := by
  apply ext_getElem
  · simp
  · intro i hi hi'
    simp only [length_map] at hi'
    simp [hdr, iovecs, sentinel, slice, take_one, hi']

/-- What is reported is the number of datagrams in the messages that were sent. -/
theorem sendGso_datagrams {sendmmsg : List MmsgHdr → ℤ}
    (hkernel : ∀ hdrs, sendmmsg hdrs ≤ hdrs.length) {outcome : SendOutcome}
    (h : sendGso sendmmsg addr datagrams never = .ok outcome) :
    outcome.datagrams = (((submitted addr datagrams never).take
      (sendmmsg ((submitted addr datagrams never).map (·.hdr datagrams))).toNat).map
        PlannedMessage.datagrams).sum := by
  unfold sendGso at h
  unfold submitted
  by_cases hinput : datagrams = [] ∨ maxBatch < datagrams.length
  · rw [if_pos hinput] at h
    cases h
  rw [if_neg hinput] at h
  split_ifs at h ⊢ with hsmall
  · rw [hdr_singles]
    unfold send at h
    rw [if_neg hinput] at h
    dsimp only at h
    have hle := hkernel (datagrams.map fun datagram => ⟨[datagram], none⟩)
    rw [length_map] at hle
    generalize sendmmsg (datagrams.map fun datagram => ⟨[datagram], none⟩) = sent at h hle ⊢
    split_ifs at h with hsent hzero
    · cases h
      simp only [map_take, map_map, Function.comp_def, map_const', length_range',
        take_replicate, sum_replicate, smul_eq_mul, mul_one]
      omega
    · cases h
    · cases h
  · dsimp only at h
    split_ifs at h with hsent hzero
    cases h
    rfl

/-- For every batch, address and mitigation: the messages take the datagrams once and in order;
kernel and receiver cut each into its datagrams and, if there is one, the sentinel, which is
shorter; a message has at most 64 segments and fits the payload limit unless it is a single
datagram without segment size; and what is reported for those sent is the number of their datagrams, the first of the
batch. -/
theorem plan_transparent (addr : SocketAddr) (datagrams : List (List Byte)) (never : Bool) :
    ((plan addr datagrams never).length ≤ datagrams.length ∧
      (plan addr datagrams never).flatMap (·.slice datagrams) = datagrams ∧
      ∀ (k : ℕ) (m : PlannedMessage), (plan addr datagrams never)[k]? = some m →
        m.first = (((plan addr datagrams never).take k).map PlannedMessage.datagrams).sum ∧
        0 < m.datagrams ∧ (m.slice datagrams).length = m.datagrams) ∧
    (∀ m ∈ plan addr datagrams never,
      kernelSegments m.segmentSize (m.iovecs datagrams).flatten = m.slice datagrams ++ m.sentinel ∧
      (m.iovecs datagrams).length ≤ maxGsoSegments ∧
      ((m.iovecs datagrams).flatten.length ≤ maxPayload addr ∨
        m.segmentSize = none ∧
          ∃ d ∈ datagrams, m.iovecs datagrams = [d] ∧ maxPayload addr < d.length) ∧
      (m.appendSentinel = true → never = true ∧ ∃ size, m.segmentSize = some size ∧
        neverGsoEqualTailSentinel.length < size)) ∧
    (∀ ms : List (PlannedMessage × SocketAddr), ms.length ≤ groTailSlots →
      (∀ r ∈ ms, r.1 ∈ plan addr datagrams never ∧
        (r.1.iovecs datagrams).flatten.length ≤ groPacketCapacity) →
      splitGroTail [] (ms.map fun r => r.1.received datagrams r.2) =
        .ok (ms.flatMap fun r => (r.1.slice datagrams ++ r.1.sentinel).map (·, r.2))) ∧
    ∀ sendmmsg : List MmsgHdr → ℤ, (∀ hdrs, sendmmsg hdrs ≤ hdrs.length) →
      ∀ outcome, sendGso sendmmsg addr datagrams never = .ok outcome →
        ∃ k, k = (sendmmsg ((submitted addr datagrams never).map (·.hdr datagrams))).toNat ∧
          ((submitted addr datagrams never).take k).flatMap (·.slice datagrams) =
            datagrams.take outcome.datagrams ∧ outcome.datagrams ≤ datagrams.length := by
  have hcovers : Covers addr never 0 (plan addr datagrams never) datagrams :=
    planFrom_covers addr never 0 datagrams
  have hsound := hcovers.sound rfl
  refine ⟨⟨hcovers.length_le, ?_, fun k m hm => ?_⟩, fun m hm => ?_, fun ms hlen hms => ?_,
    fun sendmmsg hkernel outcome hok => ?_⟩
  · obtain ⟨htake, -⟩ := hcovers.take rfl (plan addr datagrams never).length
    rwa [take_length, hcovers.sum, take_length] at htake
  · have h := hsound m (mem_of_getElem? hm)
    refine ⟨by simpa using hcovers.first_eq hm, ?_, h.count.symm⟩
    rw [h.count]
    exact length_pos_iff.mpr h.nonempty
  · have h := hsound m hm
    refine ⟨h.kernelSegments, h.segments, ?_, h.sentinel⟩
    rcases h.cases with ⟨d, hd, hsize⟩ | ⟨size, -, -, -, hfits⟩
    · rcases Nat.lt_or_ge (maxPayload addr) d.length with hlarge | hfits
      · have hslice : m.slice datagrams = [d] := by
          rcases append_eq_singleton_iff.mp hd with ⟨hnil, -⟩ | ⟨hslice, -⟩
          · exact absurd hnil h.nonempty
          · exact hslice
        have hmem : d ∈ m.slice datagrams := hslice ▸ mem_singleton_self d
        exact .inr ⟨hsize, d, mem_of_mem_drop (mem_of_mem_take hmem), hd, hlarge⟩
      · exact .inl (by simpa [iovecs, hd] using hfits)
    · exact .inl hfits
  · refine splitGroTail_received ms [] (fun r hr => ⟨hsound r.1 (hms r hr).1, (hms r hr).2⟩) ?_
    simp only [length_nil, groTailSlots, maxGsoSegments, maxBatch] at *
    omega
  · refine ⟨_, rfl, ?_⟩
    rw [sendGso_datagrams hkernel hok]
    exact (submitted_covers addr datagrams never).take rfl _

/-- Two equal datagrams in one message. -/
theorem plan_transparent_pair :
    sendGso (fun hdrs => hdrs.length) (.v4 0 0) [[1, 2], [3, 4]] false = .ok ⟨2, 4⟩ ∧
    ∃ k, k = ((submitted (.v4 0 0) [[1, 2], [3, 4]] false).map (·.hdr [[1, 2], [3, 4]])).length ∧
      ((submitted (.v4 0 0) [[1, 2], [3, 4]] false).take k).flatMap (·.slice [[1, 2], [3, 4]]) =
        [[1, 2], [3, 4]] := by
  have hsent : sendGso (fun hdrs => hdrs.length) (.v4 0 0) [[1, 2], [3, 4]] false = .ok ⟨2, 4⟩ := by
    simp [sendGso, plan, planFrom, coalesce, maxBatch, maxGsoSegments, maxPayload, maxIpv4Payload,
      wireBytes, slice]
  obtain ⟨k, hk, htake, -⟩ := (plan_transparent (.v4 0 0) [[1, 2], [3, 4]] false).2.2.2
    (fun hdrs => hdrs.length) (fun _ => le_rfl) ⟨2, 4⟩ hsent
  exact ⟨hsent, k, by simpa using hk, htake⟩

theorem plan_single (addr : SocketAddr) (d : List Byte) (never : Bool) :
    plan addr [d] never = [⟨0, 1, none, false⟩] ∧
      (iovecs ⟨0, 1, none, false⟩ [d]).flatten = d := by
  simp [plan, planFrom, coalesce, iovecs, slice, sentinel]

/-- A datagram over the limit is a message all the same, which the kernel rejects. -/
theorem oversized_planned :
    plan (.v4 0 0) [replicate 65508 0] false = [⟨0, 1, none, false⟩] ∧
      maxPayload (.v4 0 0) < (iovecs ⟨0, 1, none, false⟩ [replicate 65508 0]).flatten.length := by
  obtain ⟨hplan, hpayload⟩ := plan_single (.v4 0 0) (replicate 65508 0) false
  refine ⟨hplan, ?_⟩
  rw [hpayload, length_replicate, maxPayload, maxIpv4Payload]
  exact lt_succ_self _

end Rustscale.UdpBatch
