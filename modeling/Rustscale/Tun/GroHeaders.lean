import Rustscale.Tun.GroAccount

/-! Which header fields the packets of one output have in common. -/
namespace Rustscale.Tun
open Octets Bytes List GroOutput

/-- The fields of the network header that merged packets share. -/
inductive NetFields where
  | v4 (tos ttl : Byte) (df : Bool)
  | v6 (trafficClass hopLimit : Byte) (flowLabel : ℕ)
  deriving DecidableEq

/-- The fields that merged packets share. -/
structure HeaderFields where
  window : ℕ
  urgent : ℕ
  ack : ℕ
  options : List Byte
  net : NetFields
  deriving DecidableEq

def isV6 (p : List Byte) : Bool := decide (get p 0 >>> 4 = 6)

def netFields (p : List Byte) : NetFields :=
  if isV6 p then
    .v6 ((get p 0 &&& 0x0f) <<< 4 ||| get p 1 >>> 4) (get p 7) (num 4 p 0 % 2 ^ 20)
  else
    .v4 (get p 1) (get p 8) (get p 6 &&& 0x40 ≠ 0)

def headerFields (p : List Byte) : HeaderFields :=
  let ip := ipLenOf (isV6 p)
  { window := num 2 p (ip + 14)
    urgent := num 2 p (ip + 18)
    ack := num 4 p (ip + 8)
    options := tcpOptions p ip ((get p (ip + 12) >>> 4).toNat * 4)
    net := netFields p }

/-- The fields that are not compared: window, urgent pointer and IPv6 flow label. -/
def HeaderFields.unchecked (h : HeaderFields) : ℕ × ℕ × ℕ :=
  (h.window, h.urgent, match h.net with
    | .v4 _ _ _ => 0
    | .v6 _ _ flowLabel => flowLabel)

def uncheckedFields (p : List Byte) : ℕ × ℕ × ℕ := (headerFields p).unchecked

section
variable {p q : List Byte} {m m' : TcpMeta}

theorem tcpVersion_v4 (h : tcpVersion p = some false) : get p 0 >>> 4 = 4 ∧
    get p 0 &&& 0x0f = 5 ∧ get p 9 = protoTcp ∧ num 2 p 2 = p.length ∧ get p 6 <<< 3 = 0 ∧
    get p 7 = 0 := by
  unfold tcpVersion at h
  split_ifs at h with h4 hbad
  · simp only [not_or, not_not] at hbad
    exact ⟨h4.1, h4.2.1, h4.2.2, hbad.1, hbad.2.2.1, hbad.2.2.2⟩
  · simp at h

theorem tcpVersion_v6 (h : tcpVersion p = some true) : get p 0 >>> 4 = 6 ∧ 60 ≤ p.length ∧
    get p 6 = protoTcp ∧ num 2 p 4 = p.length - 40 := by
  unfold tcpVersion at h
  split_ifs at h with h4 hbad h6 hlen
  · simp at h
  exact ⟨h6.1, h6.2.1, h6.2.2, not_not.mp hlen⟩

theorem IsMeta.isV6_eq (h : IsMeta p m) : isV6 p = m.key.v6 := by
  have hv := h.version
  unfold isV6
  cases hk : m.key.v6 with
  | true => exact decide_eq_true (tcpVersion_v6 (hk ▸ hv)).1
  | false => rw [(tcpVersion_v4 (hk ▸ hv)).1]; decide

theorem df_eq_of_shift {a b : Byte} (h : a >>> 5 = b >>> 5) : a &&& 0x40 = b &&& 0x40 := by
  have hshift : ∀ a : Byte, a &&& (0x40 : Byte) = (a >>> 5) <<< 5 &&& (0x40 : Byte) := by decide
  rw [hshift a, hshift b, h]

/-- Packets of one item differ in the unchecked fields at most. -/
theorem headerFields_eq {item : TcpItem} (hp : IsMeta p m) (hq : IsMeta q m')
    (hkey : m.key = item.key) (hkey' : m'.key = item.key) (hlen : m.tcpLen = item.tcpLen)
    (hlen' : m'.tcpLen = item.tcpLen) (hip : item.ipLen = ipLenOf item.key.v6)
    (hlike : likeness p item = likeness q item) (hun : uncheckedFields p = uncheckedFields q) :
    headerFields p = headerFields q := by
  have hvp : isV6 p = item.key.v6 := hkey ▸ hp.isV6_eq
  have hvq : isV6 q = item.key.v6 := hkey' ▸ hq.isV6_eq
  have htp := hp.tcpLen
  have htq := hq.tcpLen
  have hap := hp.ack
  have haq := hq.ack
  rw [hp.ipLen, hkey] at htp hap
  rw [hq.ipLen, hkey'] at htq haq
  have hopt : tcpOptions p (ipLenOf item.key.v6) item.tcpLen =
      tcpOptions q (ipLenOf item.key.v6) item.tcpLen := hip ▸ congrArg Prod.snd hlike
  have hnet : likeIp p item.key.v6 = likeIp q item.key.v6 := congrArg Prod.fst hlike
  simp only [uncheckedFields, HeaderFields.unchecked, Prod.mk.injEq] at hun
  obtain ⟨hwin, hurg, hflow⟩ := hun
  have hnets : netFields p = netFields q := by
    cases hv : item.key.v6 with
    | true =>
      simp only [likeIp, hv, if_true, cons.injEq, and_true] at hnet
      simp only [headerFields, netFields, hvp, hvq, hv, if_true] at hflow ⊢
      rw [hnet.1, hnet.2.1, hnet.2.2, hflow]
    | false =>
      simp only [likeIp, hv, Bool.false_eq_true, if_false, cons.injEq, and_true] at hnet
      simp only [netFields, hvp, hvq, hv, Bool.false_eq_true, if_false]
      rw [hnet.1, df_eq_of_shift hnet.2.1, hnet.2.2]
  simp only [headerFields, hvp, hvq] at hwin hurg ⊢
  rw [hwin, hurg, ← hap, ← haq, ← htp, ← htq, hlen, hlen', hopt, hnets]

end

def joined (e : Endian) (packets : List (List Byte)) (st : TcpGroState) (n : ℕ) :
    Option GroOutput :=
  match tcpMeta (packetAt packets n) with
  | none => none
  | some m =>
    match (search e packets (packetAt packets n) m st.outputs (st.items m.key).length
      (st.items m.key)).2 with
    | .join _ _ output _ => some output
    | _ => none

/-- The packets of each output agree on what the output has only once. -/
def Uniform (packets : List (List Byte)) (outputs : List GroOutput) : Prop :=
  ∀ o ∈ outputs, ∀ i ∈ o.members, ∀ j ∈ o.members,
    headerFields (packetAt packets i) = headerFields (packetAt packets j)

section
variable {e : Endian} {packets : List (List Byte)} {st : TcpGroState} {n : ℕ} {order : HashOrder}

/-- Step: a packet starts an output of its own or joins one. -/
theorem planPacket_outputs (h : Inv e packets n st) :
    (joined e packets st n = none ∧
      (planPacket e packets st n).outputs = pushScalar st.outputs n) ∨
    ∃ k o o', joined e packets st n = some o ∧ st.outputs[k]? = some o ∧
      (planPacket e packets st n).outputs = st.outputs.set k o' ∧
      o'.members.Perm (n :: o.members) ∧ ∃ item, Merged e packets item o' := by
  have hinv := h.step
  unfold planPacket joined at *
  cases hm : tcpMeta (packetAt packets n) with
  | none => exact .inl ⟨rfl, rfl⟩
  | some m =>
    have hs : Searched e packets (packetAt packets n) m st.outputs (st.items m.key)
      (search e packets (packetAt packets n) m st.outputs (st.items m.key).length
        (st.items m.key)) := search_spec _ _
    rw [hm] at hinv
    dsimp only [tcpGro] at hinv ⊢
    generalize search e packets (packetAt packets n) m st.outputs (st.items m.key).length
      (st.items m.key) = r at hs hinv ⊢
    obtain ⟨items, c⟩ := r
    cases c with
    | fresh | scalar => exact .inl ⟨rfl, rfl⟩
    | join index item o mode =>
      have ho := (hs.join index item o mode rfl).2.1
      refine .inr ⟨item.output, o, mergeOutput o n m item mode packets, rfl, ho, rfl,
        mergeOutput_members_perm _ _ _ _ _ _, ?_⟩
      have hlt := (List.getElem?_eq_some_iff.mp ho).1
      have hself := getElem?_set_self (a := mergeOutput o n m item mode packets) hlt
      obtain ⟨key, x, hx, hxo⟩ := hinv.tracked item.output _ hself
        (mergeOutput_fragments_ne_nil _ _ _ _ _ _)
      obtain ⟨-, o2, ho2, hmx⟩ := hinv.merged key x hx
      rw [hxo] at ho2
      exact ⟨x, Option.mem_unique ho2 hself ▸ hmx⟩

theorem Merged.headerFields_eq {item : TcpItem} {o : GroOutput} (h : Merged e packets item o)
    {i j : ℕ} (hi : i ∈ o.members) (hj : j ∈ o.members)
    (hun : uncheckedFields (packetAt packets i) = uncheckedFields (packetAt packets j)) :
    headerFields (packetAt packets i) = headerFields (packetAt packets j) := by
  obtain ⟨a, ha⟩ := getElem?_of_mem hi
  obtain ⟨b, hb⟩ := getElem?_of_mem hj
  obtain ⟨m, hm, hp⟩ := h.place a i ha
  obtain ⟨m', hm', hp'⟩ := h.place b j hb
  exact Tun.headerFields_eq (isMeta_of_tcpMeta hm) (isMeta_of_tcpMeta hm') hp.key hp'.key hp.tcpLen
    hp'.tcpLen h.ipLen ((h.alike i hi).trans (h.alike j hj).symm) hun

/-- Step: outputs stay uniform unless a packet joins one with other unchecked fields. -/
theorem uniform_planPacket_iff (h : Inv e packets n st) :
    Uniform packets (planPacket e packets st n).outputs ↔ Uniform packets st.outputs ∧
      ∀ o, joined e packets st n = some o →
        uncheckedFields (packetAt packets n) = uncheckedFields (packetAt packets o.head) := by
  rcases planPacket_outputs h with ⟨hj, hout⟩ | ⟨k, o, o', hj, ho, hout, hperm, item, hm⟩
  · rw [hout, hj]
    constructor
    · intro hu
      exact ⟨fun o ho => hu o (mem_append_left _ ho), by simp⟩
    · rintro ⟨hu, -⟩ o ho
      rcases mem_append.mp ho with ho | ho
      · exact hu o ho
      · intro i hi j hj
        rw [mem_singleton.mp ho] at hi hj
        simp only [members, map_nil, mem_singleton] at hi hj
        rw [hi, hj]
  · rw [hout]
    have hlt := (List.getElem?_eq_some_iff.mp ho).1
    have hnew : o' ∈ st.outputs.set k o' := mem_of_getElem? (getElem?_set_self hlt)
    have hhead : o.head ∈ o'.members := hperm.mem_iff.mpr (mem_cons_of_mem _ (mem_cons_self ..))
    have hn : n ∈ o'.members := hperm.mem_iff.mpr (mem_cons_self ..)
    constructor
    · intro hu
      refine ⟨fun x hx i hi j hj' => ?_, fun x hx => ?_⟩
      · obtain ⟨k', hk'⟩ := getElem?_of_mem hx
        by_cases hkk : k = k'
        · obtain rfl : x = o := Option.some.inj ((hkk ▸ hk').symm.trans ho)
          exact hu o' hnew i (hperm.mem_iff.mpr (mem_cons_of_mem _ hi)) j
            (hperm.mem_iff.mpr (mem_cons_of_mem _ hj'))
        · refine hu x (mem_of_getElem? (i := k') ?_) i hi j hj'
          rw [getElem?_set_ne hkk, hk']
      · obtain rfl := Option.mem_unique hj hx
        exact congrArg HeaderFields.unchecked (hu o' hnew n hn o.head hhead)
    · rintro ⟨hu, hjoin⟩ x hx
      rcases mem_or_eq_of_mem_set hx with hx | rfl
      · exact hu x hx
      · have hnhead := hm.headerFields_eq hn hhead (hjoin o hj)
        have hall : ∀ i ∈ x.members, headerFields (packetAt packets i) =
            headerFields (packetAt packets o.head) := by
          intro i hi
          rcases mem_cons.mp (hperm.mem_iff.mp hi) with rfl | hi
          · exact hnhead
          · exact hu o (mem_of_getElem? ho) i hi o.head (mem_cons_self ..)
        intro i hi j hj
        exact (hall i hi).trans (hall j hj).symm

theorem uniform_planned_iff (e : Endian) (packets : List (List Byte)) : ∀ n,
    Uniform packets (planned e packets n).outputs ↔
      ∀ k < n, ∀ o, joined e packets (planned e packets k) k = some o →
        uncheckedFields (packetAt packets k) = uncheckedFields (packetAt packets o.head)
  | 0 => by simp [planned, Uniform]
  | n + 1 => by
    rw [planned, uniform_planPacket_iff (planned_inv e packets n), uniform_planned_iff e packets n]
    constructor
    · rintro ⟨hk, hn⟩ k hlt
      rcases Nat.lt_succ_iff_lt_or_eq.mp hlt with hlt | rfl
      · exact hk k hlt
      · exact hn
    · exact fun h => ⟨fun k hk => h k (hk.trans (Nat.lt_succ_self n)), h n (Nat.lt_succ_self n)⟩

theorem uniform_of_shape {a b : List GroOutput} (h : a.map shape = b.map shape)
    (hu : Uniform packets a) : Uniform packets b := by
  intro o ho
  obtain ⟨o', ho', hs⟩ := mem_map.mp (h ▸ mem_map_of_mem ho)
  have hm : o'.members = o.members := by
    have h1 := congrArg Prod.fst hs
    have h2 := congrArg Prod.snd hs
    simp only [shape] at h1 h2
    rw [members, members, h1, h2]
  exact hm ▸ hu o' ho'

/-- The packets of every output agree on the header fields it has only once, iff each that joined
has the window, urgent pointer and IPv6 flow label of its head. -/
theorem plan_uniform_iff (e : Endian) (order : HashOrder) (packets : List (List Byte)) :
    Uniform packets (plan e order packets).1 ↔
      ∀ n < packets.length, ∀ o, joined e packets (planned e packets n) n = some o →
        uncheckedFields (packetAt packets n) = uncheckedFields (packetAt packets o.head) := by
  rw [← uniform_planned_iff]
  exact ⟨uniform_of_shape (plan_shape e order packets),
    uniform_of_shape (plan_shape e order packets).symm⟩

end

def tcpPacket (seq window : ℕ) (payload : List Byte) : List Byte :=
  let tcp := [3, 232, 7, 208] ++ toBytes .big 4 seq ++ [0, 0, 0, 7, 0x50, 0x10] ++
    toBytes .big 2 window ++ [0, 0, 0, 0] ++ payload
  [0x45, 0] ++ toBytes .big 2 (40 + payload.length) ++ [0, 0, 0, 0, 64, 6, 0, 0] ++
    [10, 0, 0, 1, 10, 0, 0, 2] ++
    fillChecksum 16 (fun d => checksum .little d
      (pseudo .little protoTcp [10, 0, 0, 1] [10, 0, 0, 2] tcp.length)) tcp

def inOrder : HashOrder := ⟨id, fun _ => .refl _⟩

/-- A window update between two segments. -/
def twoWindows : List (List Byte) := [tcpPacket 1 100 [97], tcpPacket 2 200 [98]]

/-- Packets with different windows are merged. -/
theorem plan_twoWindows : ¬Uniform twoWindows (plan .little inOrder twoWindows).1 := by
  have hmerged : ∃ o ∈ (plan .little inOrder twoWindows).1, 0 ∈ o.members ∧ 1 ∈ o.members := by
    decide +kernel
  have hwindow : (headerFields (packetAt twoWindows 0)).window ≠
      (headerFields (packetAt twoWindows 1)).window := by decide +kernel
  intro h
  obtain ⟨o, ho, h0, h1⟩ := hmerged
  exact hwindow (congrArg HeaderFields.window (h o ho 0 h0 1 h1))

end Rustscale.Tun
