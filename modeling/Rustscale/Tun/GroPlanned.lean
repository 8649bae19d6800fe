import Rustscale.Tun.GroInvariant

/-! Every packet is in one output, and the items describe their outputs. -/
namespace Rustscale.Tun
open Octets Bytes List TcpGroState Option

/-- What a search of the flow comes to. -/
structure Searched (e : Endian) (packets : List (List Byte)) (p : List Byte) (m : TcpMeta)
    (outputs : List GroOutput) (items : List TcpItem) (r : List TcpItem × Choice) : Prop where
  sublist : r.1.Sublist items
  kept : ∀ item ∈ items, item ∈ r.1 ∨ ∃ o, outputs[item.output]? = some o ∧ o.fragments = []
  join : ∀ i item o mode, r.2 = .join i item o mode →
    r.1[i]? = some item ∧ outputs[item.output]? = some o ∧
    mode = canCoalesce o p m item packets ∧ mode ≠ .no ∧
    (o.fragments = [] →
      tcpChecksumValid e (packetAt packets o.head) item.ipLen item.key.v6 = true) ∧
    tcpChecksumValid e p m.ipLen m.key.v6 = true

section
variable {e : Endian} {packets : List (List Byte)} {p : List Byte} {m : TcpMeta}
  {outputs : List GroOutput} {n : ℕ}

theorem searched_of_choice {items : List TcpItem} {c : Choice}
    (hc : ∀ i item o mode, c ≠ .join i item o mode) :
    Searched e packets p m outputs items (items, c) :=
  ⟨.refl _, fun _ h => .inl h, fun i item o mode h => absurd h (hc i item o mode)⟩

theorem Searched.erase {items : List TcpItem} {i : ℕ} {item : TcpItem} {o : GroOutput}
    {r : List TcpItem × Choice} (hi : items[i]? = some item)
    (ho : outputs[item.output]? = some o) (hf : o.fragments = [])
    (h : Searched e packets p m outputs (items.eraseIdx i) r) :
    Searched e packets p m outputs items r := by
  refine ⟨h.sublist.trans (eraseIdx_sublist _ _), fun x hx => ?_, h.join⟩
  obtain ⟨j, hj⟩ := getElem?_of_mem hx
  by_cases hji : j = i
  · obtain rfl : x = item := by
      rw [hji, hi] at hj
      exact (some.inj hj).symm
    exact .inr ⟨o, ho, hf⟩
  · obtain ⟨hlt, rfl⟩ := List.getElem?_eq_some_iff.mp hj
    exact h.kept _ (mem_eraseIdx_iff_getElem.mpr ⟨j, hlt, hji, rfl⟩)

theorem search_spec (i : ℕ) : ∀ items, Searched e packets p m outputs items
    (search e packets p m outputs i items) := by
  induction i with
  | zero => exact fun items => searched_of_choice (by simp)
  | succ i ih =>
    intro items
    rw [search]
    split
    case h_2 => exact ih items
    case h_1 item o hi ho =>
      have ho : outputs[item.output]? = some o := by simpa [hi] using ho
      dsimp only
      split_ifs with hno hcorrupt hvalid
      · exact ih items
      · exact (ih _).erase hi ho hcorrupt.1
      · exact searched_of_choice (by simp)
      · refine ⟨.refl _, fun _ h => .inl h, ?_⟩
        rintro _ _ _ _ ⟨⟩
        refine ⟨hi, ho, rfl, hno, fun hf => ?_, by simpa using hvalid⟩
        simpa [hf] using hcorrupt

end

/-- Each packet is in one output, and the items of a flow describe outputs. -/
structure Inv (e : Endian) (packets : List (List Byte)) (n : ℕ) (st : TcpGroState) : Prop where
  perm : (st.outputs.flatMap GroOutput.members).Perm (List.range n)
  header : ∀ o ∈ st.outputs, o.header = replicate virtioNetHdrLen 0
  merged : ∀ key, ∀ item ∈ st.items key, item.key = key ∧
    ∃ o, st.outputs[item.output]? = some o ∧ Merged e packets item o
  distinct : ∀ key, ((st.items key).map (·.output)).Nodup
  tracked : ∀ k o, st.outputs[k]? = some o → o.fragments ≠ [] →
    ∃ key, ∃ item ∈ st.items key, item.output = k

section
variable {e : Endian} {packets : List (List Byte)} {st : TcpGroState} {n : ℕ}

theorem items_insert (key key' : TcpFlowKey) (items : List TcpItem) (outputs : List GroOutput) :
    TcpGroState.items { flows := st.flows.insert key items, outputs } key' =
      if key' = key then items else st.items key' := by
  unfold TcpGroState.items
  split_ifs with h
  · rw [h, AList.lookup_insert, getD_some]
  · rw [AList.lookup_insert_ne h]

variable {α : Type} {a b : α} {o : GroOutput} {st' : TcpGroState} {item : TcpItem} {m : TcpMeta}

theorem flatMap_set_perm {β : Type} {f : α → List β} {x : β} (hf : (f b).Perm (x :: f a)) :
    ∀ {l : List α} {k : ℕ}, l[k]? = some a →
      ((l.set k b).flatMap f).Perm (x :: l.flatMap f)
  | [], _, h => by simp at h
  | c :: l, 0, h => by
    obtain rfl : c = a := by simpa using h
    rw [set_cons_zero, flatMap_cons, flatMap_cons, ← cons_append]
    exact hf.append_right _
  | c :: l, k + 1, h => by
    have h' : l[k]? = some a := by simpa using h
    rw [set_cons_succ, flatMap_cons, flatMap_cons]
    exact ((flatMap_set_perm hf h').append_left _).trans perm_middle

theorem inv_start (e : Endian) (packets : List (List Byte)) : Inv e packets 0 (planned e packets 0) where
  perm := .refl _
  header := by simp [planned]
  merged := by simp [planned, items]
  distinct := by simp [planned, items]
  tracked := by simp [planned]

theorem getElem?_pushScalar {outputs : List GroOutput} {k : ℕ} (h : outputs[k]? = some o) :
    (pushScalar outputs n)[k]? = some o := by
  rw [pushScalar, List.getElem?_append_left (List.getElem?_eq_some_iff.mp h).1, h]

/-- The invariant over a packet that starts an output of its own. -/
theorem Inv.scalar (h : Inv e packets n st) {items' : TcpFlowKey → List TcpItem}
    (hout : st'.outputs = pushScalar st.outputs n) (hitems : ∀ key, st'.items key = items' key)
    (hsub : ∀ key, (items' key).Sublist (st.items key))
    (hkept : ∀ key, ∀ item ∈ st.items key, item ∈ items' key ∨
      ∃ o, st.outputs[item.output]? = some o ∧ o.fragments = []) :
    Inv e packets (n + 1) st' := by
  refine ⟨?_, ?_, ?_, ?_, ?_⟩
  · rw [hout, pushScalar, flatMap_append, range_succ]
    exact h.perm.append (.refl _)
  · intro o ho
    rw [hout, pushScalar, mem_append, mem_singleton] at ho
    rcases ho with ho | rfl
    · exact h.header o ho
    · rfl
  · intro key item hitem
    rw [hitems] at hitem
    obtain ⟨hkey, o, ho, hm⟩ := h.merged key item ((hsub key).subset hitem)
    exact ⟨hkey, o, hout ▸ getElem?_pushScalar ho, hm⟩
  · intro key
    rw [hitems]
    exact (h.distinct key).sublist ((hsub key).map _)
  · intro k o ho hf
    rw [hout, pushScalar] at ho
    rcases Nat.lt_or_ge k st.outputs.length with hlt | hge
    · rw [getElem?_append_left hlt] at ho
      obtain ⟨key, item, hitem, rfl⟩ := h.tracked k o ho hf
      rcases hkept key item hitem with hin | ⟨o', ho', hf'⟩
      · exact ⟨key, item, hitems key ▸ hin, rfl⟩
      · obtain rfl := mem_unique ho ho'
        exact absurd hf' hf
    · rw [getElem?_append_right hge] at ho
      have := mem_of_getElem? ho
      rw [mem_singleton] at this
      exact absurd (congrArg GroOutput.fragments this) (by simpa using hf)

/-- The invariant over an item that becomes tracked. -/
theorem Inv.track (h : Inv e packets n st) (hout : st'.outputs = st.outputs)
    (hitems : ∀ key, st'.items key =
      if key = item.key then st.items key ++ [item] else st.items key)
    (ho : st.outputs[item.output]? = some o) (hm : Merged e packets item o)
    (hnew : ∀ x ∈ st.items item.key, x.output ≠ item.output) : Inv e packets n st' := by
  refine ⟨hout ▸ h.perm, hout ▸ h.header, ?_, ?_, ?_⟩
  · intro key x hx
    rw [hout]
    rw [hitems] at hx
    split_ifs at hx with hkey
    · rcases mem_append.mp hx with hx | hx
      · exact h.merged key x hx
      · obtain rfl : x = item := mem_singleton.mp hx
        exact ⟨hkey.symm, o, ho, hm⟩
    · exact h.merged key x hx
  · intro key
    rw [hitems]
    split_ifs with hkey
    · subst hkey
      rw [map_append, map_singleton]
      refine (h.distinct _).append (nodup_singleton _) ?_
      rw [disjoint_singleton]
      intro hmem
      obtain ⟨x, hx, hxo⟩ := mem_map.mp hmem
      exact hnew x hx hxo
    · exact h.distinct key
  · intro k o' ho' hf
    rw [hout] at ho'
    obtain ⟨key, x, hx, rfl⟩ := h.tracked k o' ho' hf
    refine ⟨key, x, ?_, rfl⟩
    rw [hitems]
    split_ifs
    · exact mem_append_left _ hx
    · exact hx

section
variable (o : GroOutput) (n : ℕ) (m : TcpMeta) (item : TcpItem) (mode : Coalesce)
  (packets : List (List Byte))

theorem mergeOutput_fragments_ne_nil : (mergeOutput o n m item mode packets).fragments ≠ [] := by
  unfold mergeOutput
  split_ifs <;> simp

theorem mergeOutput_header : (mergeOutput o n m item mode packets).header = o.header := by
  unfold mergeOutput
  split_ifs <;> rfl

end

theorem Inv.output_inj (h : Inv e packets n st) {key key' : TcpFlowKey} {x y : TcpItem}
    (hx : x ∈ st.items key) (hy : y ∈ st.items key') (hxy : x.output = y.output) : x = y := by
  obtain ⟨hkx, o, ho, hmx⟩ := h.merged key x hx
  obtain ⟨hky, o', ho', hmy⟩ := h.merged key' y hy
  rw [hxy, ho', some.injEq] at ho
  subst ho
  obtain ⟨m, hm, hp⟩ := hmx.head_place
  obtain ⟨m', hm', hp'⟩ := hmy.head_place
  rw [hm, some.injEq] at hm'
  subst hm'
  have hkeys : key = key' := by rw [← hkx, ← hky, ← hp.key, hp'.key]
  subst hkeys
  exact inj_on_of_nodup_map (h.distinct key) hx hy hxy

theorem mem_set_iff {l : List α} {i : ℕ} {x : α} (hl : l.Nodup) (hi : l[i]? = some a) :
    x ∈ l.set i b ↔ x = b ∨ (x ∈ l ∧ x ≠ a) := by
  obtain ⟨hlt, rfl⟩ := List.getElem?_eq_some_iff.mp hi
  rw [mem_iff_getElem?]
  constructor
  · rintro ⟨j, hj⟩
    rw [getElem?_set] at hj
    split_ifs at hj with hij
    · exact .inl (some.inj hj).symm
    · obtain ⟨hj', rfl⟩ := List.getElem?_eq_some_iff.mp hj
      exact .inr ⟨getElem_mem _, fun heq => hij (hl.getElem_inj_iff.mp heq).symm⟩
  · rintro (rfl | ⟨hx, hne⟩)
    · exact ⟨i, getElem?_set_self hlt⟩
    · obtain ⟨j, hj, rfl⟩ := getElem_of_mem hx
      refine ⟨j, ?_⟩
      rw [getElem?_set_ne (fun hij => hne (by simp only [hij])), getElem?_eq_getElem hj]

/-- The invariant over a packet that joins an output. -/
theorem Inv.join (h : Inv e packets n st) {items : List TcpItem} {index : ℕ} {mode : Coalesce}
    (hm : tcpMeta (packetAt packets n) = some m)
    (hs : Searched e packets (packetAt packets n) m st.outputs (st.items m.key)
      (items, .join index item o mode)) :
    Inv e packets (n + 1) {
      flows := st.flows.insert m.key (items.set index (mergeItem m item mode))
      outputs := st.outputs.set item.output (mergeOutput o n m item mode packets) } := by
  obtain ⟨hidx, ho, hmode, hne, hhead, hvalid⟩ := hs.join index item o mode rfl
  obtain ⟨hkey', hout', -⟩ := mergeItem_kept item m mode
  have hin : item ∈ st.items m.key := hs.sublist.subset (mem_of_getElem? hidx)
  obtain ⟨hkey, o', ho', hmerged⟩ := h.merged m.key item hin
  obtain rfl := mem_unique ho' ho
  have hnew := hmerged.merge hm hkey.symm hmode.symm hne hhead hvalid
  have hlt : item.output < st.outputs.length := (List.getElem?_eq_some_iff.mp ho).1
  have hother : ∀ key, ∀ x ∈ st.items key, x ≠ item → x.output ≠ item.output :=
    fun key x hx hne heq => hne (h.output_inj hx hin heq)
  have hnodup : items.Nodup := ((h.distinct m.key).sublist (hs.sublist.map _)).of_map _
  have hmem : ∀ x, x ∈ items.set index (mergeItem m item mode) ↔
      x = mergeItem m item mode ∨ (x ∈ items ∧ x ≠ item) := fun x => mem_set_iff hnodup hidx
  refine ⟨?_, ?_, ?_, ?_, ?_⟩
  · rw [range_succ]
    refine (flatMap_set_perm (mergeOutput_members_perm _ _ _ _ _ _) ho).trans ?_
    exact (h.perm.cons n).trans (perm_append_singleton _ _).symm
  · intro x hx
    rcases mem_or_eq_of_mem_set hx with hx | rfl
    · exact h.header x hx
    · rw [mergeOutput_header]
      exact h.header o' (mem_of_getElem? ho)
  · intro key x hx
    have hstay : ∀ x ∈ st.items key, x ≠ item → x.key = key ∧ ∃ o,
        (st.outputs.set item.output (mergeOutput o' n m item mode packets))[x.output]? = some o ∧
          Merged e packets x o := by
      intro x hx hne
      obtain ⟨hk, o, hox, hmx⟩ := h.merged key x hx
      refine ⟨hk, o, ?_, hmx⟩
      rw [getElem?_set_ne (hother key x hx hne).symm, hox]
    rw [items_insert] at hx
    split_ifs at hx with hk
    · subst hk
      rcases (hmem x).mp hx with rfl | ⟨hx, hne⟩
      · refine ⟨hkey'.trans hkey, _, ?_, hnew⟩
        rw [hout']
        exact getElem?_set_self hlt
      · exact hstay x (hs.sublist.subset hx) hne
    · exact hstay x hx fun heq => hk ((heq ▸ (h.merged key x hx).1).symm.trans hkey)
  · intro key
    rw [items_insert]
    split_ifs with hk
    · have hself : items.set index item = items := by
        obtain ⟨hlt', heq⟩ := List.getElem?_eq_some_iff.mp hidx
        exact (congrArg (items.set index) heq.symm).trans (set_getElem_self hlt')
      rw [map_set, hout', ← map_set, hself]
      exact (h.distinct m.key).sublist (hs.sublist.map _)
    · exact h.distinct key
  · intro k o hk hf
    by_cases hko : k = item.output
    · refine ⟨m.key, mergeItem m item mode, ?_, hout'.trans hko.symm⟩
      rw [items_insert, if_pos rfl]
      exact (hmem _).mpr (.inl rfl)
    · dsimp only at hk
      rw [getElem?_set_ne (Ne.symm hko)] at hk
      obtain ⟨key, x, hx, rfl⟩ := h.tracked k o hk hf
      refine ⟨key, x, ?_, rfl⟩
      rw [items_insert]
      split_ifs with hk'
      · subst hk'
        refine (hmem x).mpr (.inr ⟨?_, fun heq => hko (heq ▸ rfl)⟩)
        rcases hs.kept x hx with hin' | ⟨o1, ho1, hf1⟩
        · exact hin'
        · obtain rfl := mem_unique hk ho1
          exact absurd hf1 hf
      · exact hx

/-- Step: planning one packet keeps the invariant. -/
theorem Inv.step (h : Inv e packets n st) : Inv e packets (n + 1) (planPacket e packets st n) := by
  unfold planPacket
  cases hm : tcpMeta (packetAt packets n) with
  | none =>
    exact h.scalar rfl (fun _ => rfl) (fun _ => .refl _) fun _ _ hx => .inl hx
  | some m =>
    have hs : Searched e packets (packetAt packets n) m st.outputs (st.items m.key)
      (search e packets (packetAt packets n) m st.outputs (st.items m.key).length
        (st.items m.key)) := search_spec _ _
    dsimp only [tcpGro]
    generalize search e packets (packetAt packets n) m st.outputs (st.items m.key).length
      (st.items m.key) = r at hs
    obtain ⟨items, c⟩ := r
    have hscalar : Inv e packets (n + 1)
        ⟨st.flows.insert m.key items, pushScalar st.outputs n⟩ := h.scalar rfl
      (fun key => items_insert m.key key items _)
      (fun key => by
        split_ifs with hk
        · exact hk ▸ hs.sublist
        · exact .refl _)
      (fun key x hx => by
        split_ifs with hk
        · exact hs.kept x (hk ▸ hx)
        · exact .inl hx)
    cases c with
    | scalar => exact hscalar
    | join index item o mode => exact h.join hm hs
    | fresh =>
      have hkey : (m.item st.outputs.length).key = m.key := rfl
      refine hscalar.track rfl (fun key => ?_) ?_
        (merged_single hm (List.replicate virtioNetHdrLen 0) st.outputs.length) ?_
      · rw [items_insert, items_insert, hkey]
        split_ifs <;> rfl
      · rw [pushScalar, show (m.item st.outputs.length).output = st.outputs.length from rfl,
          getElem?_append_right le_rfl, Nat.sub_self]
        rfl
      · intro x hx
        rw [hkey, items_insert, if_pos rfl] at hx
        obtain ⟨-, o, ho, -⟩ := h.merged m.key x (hs.sublist.subset hx)
        exact (List.getElem?_eq_some_iff.mp ho).1.ne

theorem planned_inv (e : Endian) (packets : List (List Byte)) :
    ∀ n, Inv e packets n (planned e packets n)
  | 0 => inv_start e packets
  | n + 1 => (planned_inv e packets n).step

end

end Rustscale.Tun
