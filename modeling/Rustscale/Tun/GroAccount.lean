import Rustscale.Tun.GroPlanned

/-! The accounting pass: each merged output is accounted for once, in whatever order. -/
namespace Rustscale.Tun
open Octets Bytes List GroOutput TcpGroState

/-- What the accounting leaves of an output. -/
def GroOutput.shape (o : GroOutput) : ℕ × List PayloadFragment := (o.head, o.fragments)

def accounted (order : HashOrder) (st : TcpGroState) : List TcpItem :=
  (order.visit (st.flows.entries.map (·.2))).flatten

section
variable {e : Endian} {s : List GroOutput × List (List Byte)} {item : TcpItem} {k i : ℕ}

theorem applyItem_shape (e : Endian) (s : List GroOutput × List (List Byte)) (item : TcpItem) :
    (applyItem e s item).1.map shape = s.1.map shape := by
  unfold applyItem
  split
  · rfl
  · next o ho =>
    split_ifs
    · rfl
    · obtain ⟨hlt, rfl⟩ := List.getElem?_eq_some_iff.mp ho
      dsimp only
      rw [map_set]
      exact (congrArg _ (getElem_map shape).symm).trans (set_getElem_self (by rwa [length_map]))

theorem foldl_applyItem_shape (e : Endian) (items : List TcpItem) : ∀ s,
    (items.foldl (applyItem e) s).1.map shape = s.1.map shape := by
  induction items with
  | nil => exact fun _ => rfl
  | cons x items ih => exact fun s => (ih _).trans (applyItem_shape e s x)

theorem applyItem_output_of_ne (h : item.output ≠ k) : (applyItem e s item).1[k]? = s.1[k]? := by
  unfold applyItem
  split
  · rfl
  · split_ifs
    · rfl
    · exact getElem?_set_ne h

theorem foldl_applyItem_output (items : List TcpItem) : ∀ s, (∀ x ∈ items, x.output ≠ k) →
    (items.foldl (applyItem e) s).1[k]? = s.1[k]? := by
  induction items with
  | nil => exact fun _ _ => rfl
  | cons x items ih =>
    intro s h
    obtain ⟨hx, h⟩ := forall_mem_cons.mp h
    exact (ih _ h).trans (applyItem_output_of_ne hx)

theorem foldl_applyItem_single {o : GroOutput} (items : List TcpItem) : ∀ s,
    s.1[k]? = some o → o.fragments = [] → (items.foldl (applyItem e) s).1[k]? = some o := by
  induction items with
  | nil => exact fun _ h _ => h
  | cons x items ih =>
    intro s h hf
    refine ih _ ?_ hf
    by_cases hx : x.output = k
    · simp [applyItem, hx, h, hf]
    · rw [applyItem_output_of_ne hx, h]

def Heads (outputs : List GroOutput) (k i : ℕ) : Prop :=
  ∃ o, outputs[k]? = some o ∧ o.fragments ≠ [] ∧ o.head = i

theorem heads_of_shape {a b : List GroOutput} (h : a.map shape = b.map shape)
    (hk : Heads a k i) : Heads b k i := by
  obtain ⟨o, ho, hf, rfl⟩ := hk
  have hb : (b.map shape)[k]? = some o.shape := by
    rw [← h, getElem?_map, ho]
    rfl
  rw [getElem?_map, Option.map_eq_some_iff] at hb
  obtain ⟨o', ho', hs⟩ := hb
  exact ⟨o', ho', fun hf' => hf ((congrArg Prod.snd hs).symm.trans hf'), congrArg Prod.fst hs⟩

theorem applyItem_packet_of_ne (h : ¬Heads s.1 item.output i) :
    (applyItem e s item).2[i]? = s.2[i]? := by
  unfold applyItem
  split
  · rfl
  · next o ho =>
    split_ifs with hf
    · rfl
    · exact getElem?_set_ne fun hi => h ⟨o, ho, hf, hi⟩

theorem foldl_applyItem_packet (items : List TcpItem) : ∀ s,
    (∀ x ∈ items, ¬Heads s.1 x.output i) → (items.foldl (applyItem e) s).2[i]? = s.2[i]? := by
  induction items with
  | nil => exact fun _ _ => rfl
  | cons x items ih =>
    intro s h
    obtain ⟨hx, h⟩ := forall_mem_cons.mp h
    refine (ih _ fun y hy hy' => h y hy ?_).trans (applyItem_packet_of_ne hx)
    exact heads_of_shape (applyItem_shape e s x) hy'

/-- The fold finishes each merged output once, from its own item. -/
theorem foldl_applyItem_of_mem {items : List TcpItem} {o : GroOutput} (hitem : item ∈ items)
    (hnodup : (items.map (·.output)).Nodup) (ho : s.1[item.output]? = some o)
    (hf : o.fragments ≠ []) (hhead : ∀ x ∈ items, Heads s.1 x.output o.head →
      x.output = item.output) (hlt : o.head < s.2.length) :
    (items.foldl (applyItem e) s).1[item.output]? = some { o with header := vnetTcpHeader e item } ∧
    (items.foldl (applyItem e) s).2[o.head]? = some (account e item (packetAt s.2 o.head)) := by
  obtain ⟨before, after, rfl⟩ := append_of_mem hitem
  rw [map_append, map_cons, nodup_append, nodup_cons] at hnodup
  obtain ⟨-, ⟨hafter, -⟩, hbefore⟩ := hnodup
  have hb : ∀ x ∈ before, x.output ≠ item.output := fun x hx =>
    hbefore _ (mem_map_of_mem hx) _ (mem_cons_self ..)
  have ha : ∀ x ∈ after, x.output ≠ item.output := fun x hx heq =>
    hafter (heq ▸ mem_map_of_mem hx)
  rw [foldl_append, foldl_cons]
  generalize hs1 : before.foldl (applyItem e) s = s1
  have ho1 : s1.1[item.output]? = some o := by
    rw [← hs1, foldl_applyItem_output _ _ hb, ho]
  have hp1 : s1.2[o.head]? = s.2[o.head]? := by
    rw [← hs1]
    exact foldl_applyItem_packet _ _ fun x hx h => hb x hx (hhead x (mem_append_left _ hx) h)
  have hlt1 : o.head < s1.2.length := by
    rw [getElem?_eq_getElem hlt] at hp1
    exact (List.getElem?_eq_some_iff.mp hp1).1
  have hpa : packetAt s1.2 o.head = packetAt s.2 o.head := by
    simp [packetAt, hp1]
  have hstep : applyItem e s1 item = (s1.1.set item.output { o with header := vnetTcpHeader e item },
      s1.2.set o.head (account e item (packetAt s.2 o.head))) := by
    simp [applyItem, ho1, hf, hpa]
  have hshape : (applyItem e s1 item).1.map shape = s.1.map shape := by
    rw [applyItem_shape, ← hs1, foldl_applyItem_shape]
  constructor
  · rw [foldl_applyItem_output _ _ ha, hstep]
    exact List.getElem?_set_self (List.getElem?_eq_some_iff.mp ho1).1
  · rw [foldl_applyItem_packet _ _ fun x hx h => ha x hx
      (hhead x (mem_append_right _ (mem_cons_of_mem _ hx)) (heads_of_shape hshape h)),
      hstep]
    exact getElem?_set_self hlt1

end

section
variable {e : Endian} {packets : List (List Byte)} {st : TcpGroState} {n : ℕ} {order : HashOrder}

theorem mem_accounted {x : TcpItem} : x ∈ accounted order st ↔ ∃ key, x ∈ st.items key := by
  simp only [accounted, mem_flatten, (order.perm _).mem_iff, mem_map]
  constructor
  · rintro ⟨_, ⟨⟨key, items⟩, hmem, rfl⟩, hx⟩
    refine ⟨key, ?_⟩
    rw [TcpGroState.items, AList.mem_lookup_iff.mpr hmem]
    exact hx
  · rintro ⟨key, hx⟩
    unfold items at hx
    cases hl : st.flows.lookup key with
    | none => simp [hl] at hx
    | some items =>
      rw [hl] at hx
      exact ⟨items, ⟨⟨key, items⟩, AList.mem_lookup_iff.mp hl, rfl⟩, hx⟩

section
variable (h : Inv e packets n st)
include h

/-- No two items that are accounted for name the same output. -/
theorem Inv.accounted_nodup (order : HashOrder) : ((accounted order st).map (·.output)).Nodup := by
  have hitems : ∀ {key items}, ⟨key, items⟩ ∈ st.flows.entries → st.items key = items := by
    intro key items hmem
    rw [TcpGroState.items, AList.mem_lookup_iff.mpr hmem, Option.getD_some]
  have hnodup : (accounted order st).Nodup := by
    rw [accounted, ((order.perm _).flatten).nodup_iff, nodup_flatten]
    constructor
    · intro l hl
      obtain ⟨⟨key, items⟩, hmem, rfl⟩ := mem_map.mp hl
      exact ((hitems hmem) ▸ h.distinct key).of_map _
    · rw [pairwise_map]
      refine (nodupKeys_iff_pairwise.mp st.flows.nodupKeys).imp_of_mem ?_
      rintro ⟨key, items⟩ ⟨key', items'⟩ hmem hmem' hne x hx hx'
      refine hne ((h.merged key x ?_).1.symm.trans (h.merged key' x ?_).1)
      · rwa [hitems hmem]
      · rwa [hitems hmem']
  refine List.Nodup.map_on ?_ hnodup
  intro x hx y hy hxy
  obtain ⟨key, hx⟩ := mem_accounted.mp hx
  obtain ⟨key', hy⟩ := mem_accounted.mp hy
  exact h.output_inj hx hy hxy

theorem Inv.member_inj {k k' : ℕ} {o o' : GroOutput} {i : ℕ}
    (ho : st.outputs[k]? = some o) (ho' : st.outputs[k']? = some o') (hi : i ∈ o.members)
    (hi' : i ∈ o'.members) : k = k' := by
  have hnodup := (h.perm.nodup_iff).mpr nodup_range
  have hdisj := (nodup_flatMap.mp hnodup).2
  obtain ⟨hlt, rfl⟩ := List.getElem?_eq_some_iff.mp ho
  obtain ⟨hlt', rfl⟩ := List.getElem?_eq_some_iff.mp ho'
  rw [pairwise_iff_getElem] at hdisj
  rcases lt_trichotomy k k' with hk | hk | hk
  · exact absurd hi' (hdisj k k' hlt hlt' hk hi)
  · exact hk
  · exact absurd hi (hdisj k' k hlt' hlt hk hi')

theorem Inv.members_nodup {o : GroOutput} (ho : o ∈ st.outputs) : o.members.Nodup :=
  (nodup_flatMap.mp ((h.perm.nodup_iff).mpr nodup_range)).1 o ho

theorem Inv.member_lt {o : GroOutput} {i : ℕ} (ho : o ∈ st.outputs) (hi : i ∈ o.members) : i < n :=
  mem_range.mp (h.perm.mem_iff.mp (mem_flatMap.mpr ⟨o, ho, hi⟩))

end

end

/-- An output of a plan: a packet as it was, or a merged one with its accounting. -/
inductive PlanOutput (e : Endian) (packets : List (List Byte)) (r : List GroOutput × List (List Byte))
    (k : ℕ) : Prop where
  | single (o : GroOutput) (output : r.1[k]? = some o) (fragments : o.fragments = [])
      (header : o.header = replicate virtioNetHdrLen 0)
      (head : packetAt r.2 o.head = packetAt packets o.head)
  | merged (o : GroOutput) (item : TcpItem) (spec : Merged e packets item o)
      (fragments : o.fragments ≠ [])
      (output : r.1[k]? = some { o with header := vnetTcpHeader e item })
      (head : r.2[o.head]? = some (account e item (packetAt packets o.head)))
      (rest : ∀ f ∈ o.fragments, r.2[f.packet]? = packets[f.packet]?)

section
variable {e : Endian} {packets : List (List Byte)} {order : HashOrder}

section
variable (e : Endian) (order : HashOrder) (packets : List (List Byte))

theorem plan_shape : (plan e order packets).1.map shape =
      (planned e packets packets.length).outputs.map shape :=
  foldl_applyItem_shape e _ _

theorem plan_perm :
    ((plan e order packets).1.flatMap GroOutput.members).Perm (List.range packets.length) := by
  have hmem : ∀ outputs : List GroOutput, outputs.flatMap members =
      (outputs.map shape).flatMap fun s => s.1 :: s.2.map (·.packet) := by
    intro outputs
    rw [flatMap_map]
    rfl
  rw [hmem, plan_shape, ← hmem]
  exact (planned_inv e packets packets.length).perm

end

/-- Every output of a plan is a single packet or the merge its item describes. -/
theorem plan_output {k : ℕ} (hk : k < (plan e order packets).1.length) :
    PlanOutput e packets (plan e order packets) k := by
  have h := planned_inv e packets packets.length
  set st := planned e packets packets.length with hst
  have hplan : plan e order packets =
      (accounted order st).foldl (applyItem e) (st.outputs, packets) := rfl
  have hlen : (plan e order packets).1.length = st.outputs.length := by
    have := congrArg length (plan_shape e order packets)
    simpa using this
  have hk' : k < st.outputs.length := hlen ▸ hk
  obtain ⟨o, ho⟩ : ∃ o, st.outputs[k]? = some o := ⟨_, getElem?_eq_getElem hk'⟩
  have hmem : o ∈ st.outputs := mem_of_getElem? ho
  have hhead : o.head < packets.length := h.member_lt hmem (mem_cons_self ..)
  -- a packet that is no head of a merged output is left alone
  have hrest : ∀ i, (∀ k, ¬Heads st.outputs k i) → (plan e order packets).2[i]? = packets[i]? :=
    fun i hi => hplan ▸ foldl_applyItem_packet _ _ fun x _ => hi x.output
  have hinj : ∀ {k' i}, Heads st.outputs k' i → i ∈ o.members → k' = k := by
    rintro k' i ⟨o', ho', -, rfl⟩ hi
    exact h.member_inj ho' ho (mem_cons_self ..) hi
  by_cases hf : o.fragments = []
  · refine .single o ?_ hf (h.header o hmem) ?_
    · exact hplan ▸ foldl_applyItem_single _ _ ho hf
    · have hnot : ∀ k', ¬Heads st.outputs k' o.head := by
        intro k' hheads
        have hkk := hinj hheads (mem_cons_self ..)
        obtain ⟨o', ho', hf', -⟩ := hheads
        rw [hkk, ho, Option.some.injEq] at ho'
        exact hf' (ho' ▸ hf)
      simp [packetAt, hrest _ hnot]
  · obtain ⟨key, item, hitem, rfl⟩ := h.tracked k o ho hf
    obtain ⟨-, o', ho', hm⟩ := h.merged key item hitem
    obtain rfl := Option.mem_unique ho' ho
    have hacc := foldl_applyItem_of_mem (e := e) (s := (st.outputs, packets))
      (mem_accounted.mpr ⟨key, hitem⟩) (h.accounted_nodup order) ho hf
      (fun x _ hx => hinj hx (mem_cons_self ..)) hhead
    rw [← hplan] at hacc
    refine .merged o' item hm hf hacc.1 hacc.2 fun f hfmem => hrest _ fun k' hk' => ?_
    -- a fragment of this output is not its head
    have hfm : f.packet ∈ o'.fragments.map (·.packet) := mem_map_of_mem hfmem
    have hkk := hinj hk' (mem_cons_of_mem _ hfm)
    obtain ⟨o2, ho2, -, hh⟩ := hk'
    rw [hkk, ho, Option.some.injEq] at ho2
    have hnodup := h.members_nodup hmem
    rw [members, nodup_cons] at hnodup
    subst ho2
    exact hnodup.1 (by rwa [hh])

end

end Rustscale.Tun
