import Mathlib.Data.List.TakeWhile
import Rustscale.Tsnet.Inbound

/-! Which datagrams of a burst are taken as evidence for their path. -/
namespace Rustscale.Inbound
open Octets Tailcfg Wg List Option WgTunn InboundBatchScratch

variable {E : Engine}

/-- Nothing answered with an error is authentic, and all that gives a packet is. Queued packets are
for the network. -/
structure Authenticates (E : Engine) (authentic : E.Tunn → List Byte → Prop) : Prop where
  rejected : ∀ t d, (E.decapsulate t d).1 = .err → ¬ authentic t d
  decapsulated : ∀ t d buf, (E.decapsulate t d).1 = .writeToTunnel buf → authentic t d
  queued : ∀ t buf, (E.decapsulate t []).1 ≠ .writeToTunnel buf
  committed : ∀ t t' d prepared buf opened out len,
    E.openPreparedData t d prepared buf = .ok opened →
    (E.commitOpenedData t' opened).1 = .ok (out, some len) → authentic t' d

/-- A burst in a scratch that may have been used before. -/
def InboundBatchScratch.load (s : InboundBatchScratch E) (datagrams : List WgDatagram) :
    InboundBatchScratch E :=
  { s.clear with datagrams }

/-- These datagrams were given to the engine, which took them as authentic. -/
def OnlyAuthentic (authentic : E.Tunn → List Byte → Prop) (datagrams : List WgDatagram)
    (handed : List (Handed E)) (noted : List ℕ) : Prop :=
  ∀ i ∈ noted, ∃ h ∈ handed, h.index = i ∧ datagrams[i]? = some h.datagram ∧
    authentic h.tunn h.datagram.data

def AllAuthentic (authentic : E.Tunn → List Byte → Prop) (handed : List (Handed E)) : Prop :=
  ∀ h ∈ handed, authentic h.tunn h.datagram.data

/-- Nothing, if the peer is not authorized any more or has no endpoint, or the datagram does not say
how it came. -/
def noteAuthenticatedWgTransport (current : PublicKey → ℕ → Bool) (known : PublicKey → Bool)
    (d : WgDatagram) : Option (PublicKey × WgTransportEvidence) :=
  if current d.peer d.authorizationGeneration then
    match d.transport with
    | none => none
    | some transport => if known d.peer then some (d.peer, transport) else none
  else none

section Scalar
variable {authentic : E.Tunn → List Byte → Prop}

theorem drainInto_ok (hE : Authenticates E authentic) (t : E.Tunn) (b : WgPlaintextBatch)
    (replies : List (List Byte)) : ∃ out, (drainInto t b replies).1 = .ok out := by
  fun_induction drainInto t b replies with
  | case1 t b replies buf h ih => exact ih
  | case2 t b replies buf h e hp | case3 t b replies buf h b' hp ih =>
    exact absurd h (hE.queued t buf)
  | case4 t b replies h | case5 t b replies h => exact ⟨_, rfl⟩

theorem decapsulateInto_ok (hE : Authenticates E authentic) {t : WgTunn E} {d : List Byte}
    (h : ¬ authentic t.tunn d) (b : WgPlaintextBatch) :
    ∃ replies, (t.decapsulateInto d b).1 = .ok replies := by
  unfold decapsulateInto
  cases ha : (E.decapsulate t.tunn d).1 with
  | done | err => exact ⟨[], by simp [ha]⟩
  | writeToTunnel buf => exact absurd (hE.decapsulated _ _ _ ha) h
  | writeToNetwork buf =>
    obtain ⟨out, ho⟩ := drainInto_ok hE (E.decapsulate t.tunn d).2 b [buf]
    exact ⟨out, by simp [ha, ho]⟩

/-- Each datagram noted so far was given to the engine, none twice, with those not authentic noted.
-/
structure Noted (authentic : E.Tunn → List Byte → Prop) (datagrams : List WgDatagram) (index : ℕ)
    (handed : List (Handed E)) (noted : List ℕ) : Prop where
  below : ∀ h ∈ handed, h.index < index
  distinct : (handed.map Handed.index).Nodup
  given : ∀ i ∈ noted, ∃ h ∈ handed, h.index = i
  coherent : ∀ h ∈ handed, datagrams[h.index]? = some h.datagram
  rejected : ∀ h ∈ handed, ¬ authentic h.tunn h.datagram.data → h.index ∈ noted

theorem noted_nil (datagrams : List WgDatagram) : Noted authentic datagrams 0 [] [] :=
  ⟨by simp, by simp, by simp, by simp, by simp⟩

section Noted
variable {datagrams : List WgDatagram} {index index' : ℕ} {handed : List (Handed E)}
  {noted noted' : List ℕ}

section
variable (h : Noted authentic datagrams index handed noted)
include h

theorem Noted.mono (hle : index ≤ index') : Noted authentic datagrams index' handed noted :=
  ⟨fun x hx => lt_of_lt_of_le (h.below x hx) hle, h.distinct, h.given, h.coherent, h.rejected⟩

theorem Noted.concat {d : WgDatagram} (hd : datagrams[index]? = some d) {t : E.Tunn}
    (hnoted : noted' = noted ++ [index] ∨ noted' = noted ∧ authentic t d.data) :
    Noted authentic datagrams (index + 1) (handed ++ [⟨index, d, t⟩]) noted' where
  below := forall_mem_append.mpr ⟨fun x hx => Nat.lt_succ_of_lt (h.below x hx), by simp⟩
  distinct := by
    rw [map_append, nodup_append]
    refine ⟨h.distinct, by simp, fun i hi j hj => ?_⟩
    obtain ⟨x, hx, rfl⟩ := mem_map.mp hi
    have hj' : j = index := by simpa using hj
    rw [hj']
    exact (h.below x hx).ne
  given i hi := by
    have hmem : i ∈ noted ∨ i = index := by
      rcases hnoted with rfl | ⟨rfl, -⟩
      · simpa using hi
      · exact .inl hi
    rcases hmem with hi | rfl
    · obtain ⟨x, hx, rfl⟩ := h.given i hi
      exact ⟨x, mem_append_left _ hx, rfl⟩
    · exact ⟨_, mem_append_right _ (mem_singleton_self _), rfl⟩
  coherent := forall_mem_append.mpr ⟨h.coherent, by simpa using hd⟩
  rejected x hx hna := by
    rcases mem_append.mp hx with hx | hx
    · have := h.rejected x hx hna
      rcases hnoted with rfl | ⟨rfl, -⟩
      · exact mem_append_left _ this
      · exact this
    · rw [mem_singleton.mp hx] at hna ⊢
      rcases hnoted with rfl | ⟨rfl, ha⟩
      · simp
      · exact absurd ha hna

theorem Noted.only_iff :
    OnlyAuthentic authentic datagrams handed noted ↔ AllAuthentic authentic handed := by
  constructor
  · intro hall x hx
    by_contra hna
    obtain ⟨y, hy, hxy, -, ha⟩ := hall _ (h.rejected x hx hna)
    rw [inj_on_of_nodup_map h.distinct hy hx hxy] at ha
    exact hna ha
  · intro hall i hi
    obtain ⟨x, hx, rfl⟩ := h.given i hi
    exact ⟨x, hx, rfl, h.coherent x hx, hall x hx⟩

end

end Noted

theorem cons_isPrefix_drop {d : WgDatagram} {ds datagrams : List WgDatagram} {i : ℕ}
    (h : d :: ds <+: datagrams.drop i) :
    datagrams[i]? = some d ∧ ds <+: datagrams.drop (i + 1) := by
  obtain ⟨rest, hrest⟩ := h
  have hd : (datagrams.drop i)[0]? = some d := hrest ▸ rfl
  refine ⟨by rwa [getElem?_drop] at hd, rest, ?_⟩
  rw [← drop_drop, ← hrest]
  rfl

variable {s : InboundBatchScratch E} {d : WgDatagram} {tunnels : PublicKey → Option ℕ} {env : Env E}
  {w w' : Tunnels E} {s' : InboundBatchScratch E}

section
variable (hE : Authenticates E authentic) (peer : PublicKey)
include hE

theorem collectDatagram_noted {index : ℕ}
    (t : WgTunn E) (h : Noted authentic s.datagrams index s.handed s.authenticatedDatagrams)
    (hd : s.datagrams[index]? = some d) :
    (collectDatagram peer index t s d).2.datagrams = s.datagrams ∧
      Noted authentic s.datagrams (index + 1) (collectDatagram peer index t s d).2.handed
        (collectDatagram peer index t s d).2.authenticatedDatagrams := by
  unfold collectDatagram
  rcases hr : t.decapsulateInto d.data s.plaintext with ⟨e | replies, t', b⟩
  · have ha : authentic t.tunn d.data := by
      by_contra hna
      obtain ⟨replies, ho⟩ := decapsulateInto_ok hE hna s.plaintext
      rw [hr] at ho
      cases ho
    exact ⟨rfl, h.concat hd (Or.inr ⟨rfl, ha⟩)⟩
  · exact ⟨rfl, h.concat hd (Or.inl rfl)⟩

theorem collectDatagrams_noted (ds : List WgDatagram) {index : ℕ} (t : WgTunn E)
    (h : Noted authentic s.datagrams index s.handed s.authenticatedDatagrams)
    (hds : ds <+: s.datagrams.drop index) :
    (collectDatagrams peer index t s ds).2.datagrams = s.datagrams ∧
      Noted authentic s.datagrams (index + ds.length) (collectDatagrams peer index t s ds).2.handed
        (collectDatagrams peer index t s ds).2.authenticatedDatagrams := by
  induction ds generalizing index t s with
  | nil => exact ⟨rfl, h⟩
  | cons d ds ih =>
    obtain ⟨hd, hds⟩ := cons_isPrefix_drop hds
    obtain ⟨hs, hn⟩ := collectDatagram_noted hE peer t h hd
    rw [← hs] at hn hds
    have := ih (collectDatagram peer index t s d).1 hn hds
    rw [hs, length_cons, Nat.add_comm ds.length 1, ← Nat.add_assoc] at *
    exact this

end

/-- Each run is a stretch of datagrams of one peer, with its tunnel if there is one. -/
inductive Runs (tunnels : PublicKey → Option ℕ) :
    ℕ → List WgDatagram → List InboundBatchRun → Prop
  | nil (start : ℕ) : Runs tunnels start [] []
  | drop {start : ℕ} {peer : PublicKey} {batch rest : List WgDatagram}
      {runs : List InboundBatchRun} (ht : tunnels peer = none) (hpeer : ∀ d ∈ batch, d.peer = peer)
      (h : Runs tunnels (start + batch.length) rest runs) :
      Runs tunnels start (batch ++ rest) (.drop start (start + batch.length) :: runs)
  | routed {start tunnel : ℕ} {peer : PublicKey} {batch rest : List WgDatagram}
      {runs : List InboundBatchRun} (ht : tunnels peer = some tunnel)
      (hpeer : ∀ d ∈ batch, d.peer = peer) (h : Runs tunnels (start + batch.length) rest runs) :
      Runs tunnels start (batch ++ rest)
        (.routed ⟨peer, tunnel, start, start + batch.length⟩ :: runs)

/-- The runs partition the burst into stretches of one peer each. -/
theorem runs_buildInboundRuns (start : ℕ) (ds : List WgDatagram) :
    Runs tunnels start ds (buildInboundRuns tunnels start ds) := by
  fun_induction buildInboundRuns tunnels start ds with
  | case1 start => exact .nil start
  | case2 start d rest n stop run ih =>
    let batch := d :: rest.takeWhile fun e => e.peer == d.peer
    have hstop : stop = start + batch.length := by
      simp only [stop, n, batch, length_cons]
      omega
    have hds : d :: rest = batch ++ rest.drop n := by
      simp only [batch, n, cons_append]
      have htake := prefix_iff_eq_take.mp ( takeWhile_prefix (l := rest) (·.peer == d.peer))
      conv_rhs => rw [htake, length_take_of_le ( takeWhile_prefix _).length_le, take_append_drop]
    have hpeer : ∀ e ∈ batch, WgDatagram.peer e = d.peer := by
      intro e he
      rcases mem_cons.mp he with rfl | he
      · rfl
      · simpa using mem_takeWhile_imp he
    rw [hstop] at ih
    rw [hds]
    cases ht : tunnels d.peer with
    | none =>
      have hrun : run = .drop start (start + batch.length) := by simp only [run, ht, hstop]
      rw [hrun, hstop]
      exact .drop ht hpeer ih
    | some tunnel =>
      have hrun : run = .routed ⟨d.peer, tunnel, start, start + batch.length⟩ := by
        simp only [run, ht, hstop]
      rw [hrun, hstop]
      exact .routed ht hpeer ih

/-- Run lemma: the scalar path notes each datagram it hands over that is not authentic. -/
theorem collectRuns_noted (hE : Authenticates E authentic) {start : ℕ} {ds : List WgDatagram}
    {runs : List InboundBatchRun} (hruns : Runs tunnels start ds runs)
    (h : Noted authentic s.datagrams start s.handed s.authenticatedDatagrams)
    (hr : collectRuns env w s runs = some (w', s')) :
    ∃ index, Noted authentic s.datagrams index s'.handed s'.authenticatedDatagrams := by
  induction hruns generalizing w s with
  | nil start =>
    cases hr
    exact ⟨start, h⟩
  | drop _ _ _ ih => exact ih (h.mono (Nat.le_add_right _ _)) hr
  | @routed start tunnel peer batch _ _ _ _ _ ih =>
    rw [collectRuns] at hr
    split_ifs at hr
    obtain ⟨hd, hn⟩ := collectDatagrams_noted hE peer
      (s.slice ⟨peer, tunnel, start, start + batch.length⟩)
      ((env.interfere (.collect start) w).arena tunnel) h ( take_prefix _ _)
    rw [← hd] at hn ⊢
    have hle : (s.slice ⟨peer, tunnel, start, start + batch.length⟩).length ≤
        start + batch.length - start := length_take_le _ _
    exact ih (hn.mono (by omega)) hr

theorem collectTunInboundBatch_eq_some (h : collectTunInboundBatch env w s = some (w', s')) :
    collectRuns env (env.interfere .tunnels w) { s with runs := [] }
      (buildInboundRuns (env.interfere .tunnels w).byPeer 0 s.datagrams) = some (w', s') := by
  simp only [collectTunInboundBatch, ite_none_left_eq_some, bind_eq_bind,
    Option.bind_eq_some_iff, Prod.exists, Option.pure_def] at h
  obtain ⟨-, w1, s1, hruns, -, hend⟩ := h
  cases hend
  exact hruns

theorem collectTunInboundBatch_noted (hE : Authenticates E authentic) (hh : s.handed = [])
    (ha : s.authenticatedDatagrams = []) (hr : collectTunInboundBatch env w s = some (w', s')) :
    ∃ index, Noted authentic s.datagrams index s'.handed s'.authenticatedDatagrams := by
  refine collectRuns_noted hE (runs_buildInboundRuns 0 s.datagrams) (s := { s with runs := [] }) ?_
    (collectTunInboundBatch_eq_some hr)
  rw [hh, ha]
  exact noted_nil _

end Scalar

section Pipelined
variable {authentic : E.Tunn → List Byte → Prop}

variable (datagrams : List WgDatagram)

def Opens (opened : List (Option (WgOpenedPacket E))) : Prop :=
  ∀ (i : ℕ) (token : WgOpenedPacket E) (vendor : E.Opened), opened[i]?.join = some token →
    token.opened = some vendor → ∃ d, datagrams[i]? = some d ∧
      ∃ t prepared buf, E.openPreparedData t d.data prepared buf = .ok vendor

theorem opens_nil : Opens (E := E) datagrams [] := by
  intro i token vendor h
  simp at h

theorem opens_replicate (n : ℕ) : Opens (E := E) datagrams (replicate n none) := by
  intro i token vendor h
  rw [getElem?_replicate] at h
  split_ifs at h <;> cases h

variable {datagrams : List WgDatagram} {opened : List (Option (WgOpenedPacket E))} {index : ℕ}
  {token : WgOpenedPacket E} {t : WgTunn E} {b : WgPlaintextBatch} {s s' : InboundBatchScratch E}
  {d : WgDatagram} {env : Env E} {w w' : Tunnels E} {handed : List (Handed E)} {noted : List ℕ}
  {peer : PublicKey}

theorem Opens.set (h : Opens datagrams opened)
    (ht : ∀ vendor, token.opened = some vendor → ∃ d, datagrams[index]? = some d ∧
      ∃ t prepared buf, E.openPreparedData t d.data prepared buf = .ok vendor) :
    Opens datagrams (opened.set index (some token)) := by
  intro i token' vendor hi hv
  rw [getElem?_set] at hi
  split_ifs at hi with he hl
  · cases hi
    exact he ▸ ht vendor hv
  · cases hi
  · exact h i token' vendor hi hv

theorem openPreparedInto_opened {d : List Byte} {prepared : E.Prepared} {b' : WgPlaintextBatch}
    (h : t.openPreparedInto d prepared b = (some token, b')) {vendor : E.Opened}
    (hv : token.opened = some vendor) :
    ∃ buf, E.openPreparedData t.tunn d prepared buf = .ok vendor := by
  unfold openPreparedInto at h
  rcases hs : b.takeOpenSlot (d.length - 16) with e | ⟨slot, packet, b1⟩
  · simp [hs] at h
  · rcases ho : E.openPreparedData t.tunn d prepared packet with e | o
    · simp [hs, ho] at h
    · simp only [hs, ho, Prod.mk.injEq, some.injEq] at h
      rw [← h.1] at hv
      cases hv
      exact ⟨packet, ho⟩

/-- A step that changes neither the burst nor what was noted of it. -/
structure SameBurst (s s' : InboundBatchScratch E) : Prop where
  datagrams : s'.datagrams = s.datagrams
  runs : s'.runs = s.runs
  handed : s'.handed = s.handed
  authenticatedDatagrams : s'.authenticatedDatagrams = s.authenticatedDatagrams

theorem SameBurst.refl (s : InboundBatchScratch E) : SameBurst s s := ⟨rfl, rfl, rfl, rfl⟩

theorem SameBurst.trans {s'' : InboundBatchScratch E} (h : SameBurst s s') (h' : SameBurst s' s'') :
    SameBurst s s'' :=
  ⟨h'.datagrams.trans h.datagrams, h'.runs.trans h.runs, h'.handed.trans h.handed,
    h'.authenticatedDatagrams.trans h.authenticatedDatagrams⟩

theorem openDatagram_opens (h : Opens s.datagrams s.opened) (hd : s.datagrams[index]? = some d) :
    SameBurst s (openDatagram t index s d).1 ∧
      Opens s.datagrams (openDatagram t index s d).1.opened := by
  unfold openDatagram
  cases hp : t.preflightData d.data with
  | none => exact ⟨.refl s, h⟩
  | some prepared =>
    obtain ⟨o, b, ho⟩ : ∃ o b, t.openPreparedInto d.data prepared s.plaintext = (o, b) :=
      ⟨_, _, rfl⟩
    simp only [ho]
    cases o with
    | none => exact ⟨⟨rfl, rfl, rfl, rfl⟩, h⟩
    | some token =>
      refine ⟨⟨rfl, rfl, rfl, rfl⟩, h.set fun vendor hv => ?_⟩
      obtain ⟨buf, hb⟩ := openPreparedInto_opened ho hv
      exact ⟨d, hd, t.tunn, prepared, buf, hb⟩

theorem openDatagrams_opens (ds : List WgDatagram) (h : Opens s.datagrams s.opened)
    (hds : ds <+: s.datagrams.drop index) : SameBurst s (openDatagrams t index s ds).1 ∧
      Opens s.datagrams (openDatagrams t index s ds).1.opened := by
  induction ds generalizing index s with
  | nil => exact ⟨.refl s, h⟩
  | cons d ds ih =>
    obtain ⟨hd, hds⟩ := cons_isPrefix_drop hds
    obtain ⟨hs, ho⟩ := openDatagram_opens h hd
    rw [openDatagrams]
    simp only
    split_ifs
    · exact ⟨hs, ho⟩
    · rw [← hs.datagrams] at ho hds
      obtain ⟨hs', ho'⟩ := ih ho hds
      rw [hs.datagrams] at ho'
      exact ⟨hs.trans hs', ho'⟩

theorem openRuns_opens {runs : List InboundBatchRun} {failed : Bool}
    (h : Opens s.datagrams s.opened) (hr : openRuns env w s runs = some (w', s', failed)) :
    SameBurst s s' ∧ Opens s.datagrams s'.opened := by
  induction runs generalizing w s with
  | nil =>
    cases hr
    exact ⟨.refl _, h⟩
  | cons run runs ih =>
    cases run with
    | drop start stop =>
      cases hr
      exact ⟨.refl _, h⟩
    | routed run =>
      rw [openRuns] at hr
      split_ifs at hr
      obtain ⟨hs, ho⟩ := openDatagrams_opens
        (t := (env.interfere (.open run.start) w).arena run.tunnel) (s.slice run) h
        ( take_prefix _ _)
      simp only at hr
      split_ifs at hr
      · cases hr
        exact ⟨hs, ho⟩
      · rw [← hs.datagrams] at ho
        obtain ⟨hs', ho'⟩ := ih ho hr
        rw [hs.datagrams] at ho'
        exact ⟨hs.trans hs', ho'⟩

theorem openTunInboundBatch_opens (ho : s.opened = [])
    (hr : openTunInboundBatch env w s = some (w', s')) :
    s'.datagrams = s.datagrams ∧ s'.handed = s.handed ∧
      s'.authenticatedDatagrams = s.authenticatedDatagrams ∧ Opens s.datagrams s'.opened := by
  unfold openTunInboundBatch at hr
  split_ifs at hr
  simp only [bind_eq_bind, bind_eq_some_iff, Prod.exists] at hr
  obtain ⟨w1, scalarOnly, -, hr⟩ := hr
  split_ifs at hr
  · cases hr
    exact ⟨rfl, rfl, rfl, opens_nil _⟩
  · simp only [bind_eq_some_iff, Prod.exists] at hr
    obtain ⟨w2, s2, failed, hopen, hend⟩ := hr
    obtain ⟨hs, hopens⟩ := openRuns_opens (by
      simp only [ho, take_nil, nil_append]
      exact opens_replicate _ _) hopen
    cases failed with
    | true =>
      cases hend
      exact ⟨hs.datagrams, hs.handed, hs.authenticatedDatagrams, opens_nil _⟩
    | false =>
      cases hend
      exact ⟨hs.datagrams, hs.handed, hs.authenticatedDatagrams, hopens⟩

theorem commitOpened_authentic (hE : Authenticates E authentic) (h : Opens datagrams opened)
    (hi : opened[index]?.join = some token) (hd : datagrams[index]? = some d)
    (hc : (t.commitOpened token b).1 = .accepted) : authentic t.tunn d.data := by
  unfold commitOpened at hc
  cases hv : token.opened with
  | none => simp [hv] at hc
  | some vendor =>
    obtain ⟨d', hd', t', prepared, buf, ho⟩ := h index token vendor hi hv
    obtain rfl := mem_unique hd hd'
    simp only [hv] at hc
    split_ifs at hc
    rcases ha : (E.commitOpenedData t.tunn vendor).1 with e | ⟨out, _ | len⟩
    · simp [ha] at hc
    · simp [ha] at hc
    · exact hE.committed t' t.tunn d.data prepared buf vendor out len ho ha

/-- What is noted after part of a burst is authentic. -/
structure Committed (authentic : E.Tunn → List Byte → Prop) (datagrams : List WgDatagram)
    (s : InboundBatchScratch E) : Prop where
  burst : s.datagrams = datagrams
  opens : Opens datagrams s.opened
  only : OnlyAuthentic authentic datagrams s.handed s.authenticatedDatagrams

section
variable (h : OnlyAuthentic authentic datagrams handed noted)
include h

theorem OnlyAuthentic.append (x : Handed E) :
    OnlyAuthentic authentic datagrams (handed ++ [x]) noted := by
  intro i hi
  obtain ⟨y, hy, hyi⟩ := h i hi
  exact ⟨y, mem_append_left _ hy, hyi⟩

theorem OnlyAuthentic.concat
    (hd : datagrams[index]? = some d) {t : E.Tunn} (ha : authentic t d.data) :
    OnlyAuthentic authentic datagrams (handed ++ [⟨index, d, t⟩]) (noted ++ [index]) := by
  intro i hi
  rcases mem_append.mp hi with hi | hi
  · exact h.append _ i hi
  · rw [mem_singleton.mp hi]
    exact ⟨_, mem_append_right _ (mem_singleton_self _), rfl, hd, ha⟩

end

theorem commitOpened_spent (t : WgTunn E) (token : WgOpenedPacket E) (b : WgPlaintextBatch) :
    (t.commitOpened token b).2.2.1.opened = none := by
  unfold commitOpened
  cases hv : token.opened with
  | none => simpa using hv
  | some vendor =>
    simp only
    split_ifs
    · rfl
    · rcases (E.commitOpenedData t.tunn vendor).1 with e | ⟨out, _ | len⟩ <;> rfl

section
variable (hE : Authenticates E authentic)
include hE

/-- Step: a committed datagram is noted when it is authentic and not otherwise. -/
theorem commitDatagram_committed {t' : WgTunn E}
    (h : Committed authentic datagrams s) (hd : datagrams[index]? = some d)
    (hr : commitDatagram peer index t s d = some (t', s')) : Committed authentic datagrams s' := by
  unfold commitDatagram at hr
  cases hi : s.opened[index]?.join with
  | none =>
    rw [hi] at hr
    cases hr
    exact h
  | some token =>
    obtain ⟨result, t1, spent, b, hc⟩ : ∃ result t1 spent b,
      t.commitOpened token s.plaintext = (result, t1, spent, b) := ⟨_, _, _, _, rfl⟩
    have hspent : spent.opened = none := by
      have := commitOpened_spent t token s.plaintext
      rwa [hc] at this
    have hset : Opens datagrams (s.opened.set index (some spent)) := h.opens.set fun vendor hv => by
      rw [hspent] at hv
      cases hv
    simp only [hi, hc] at hr
    cases result with
    | accepted =>
      cases hr
      have ha := commitOpened_authentic hE h.opens hi hd (congrArg Prod.fst hc)
      exact ⟨h.burst, hset, h.only.concat hd ha⟩
    | dropped =>
      cases hr
      exact ⟨h.burst, hset, h.only.append _⟩
    | stale => cases hr

theorem commitDatagrams_committed {ds : List WgDatagram} {t' : WgTunn E}
    (h : Committed authentic datagrams s) (hds : ds <+: datagrams.drop index)
    (hr : commitDatagrams peer index t s ds = some (t', s')) :
    Committed authentic datagrams s' := by
  induction ds generalizing index t s with
  | nil =>
    cases hr
    exact h
  | cons d ds ih =>
    simp only [commitDatagrams, bind_eq_bind, bind_eq_some_iff, Prod.exists] at hr
    obtain ⟨t1, s1, h1, hr⟩ := hr
    obtain ⟨hd, hds⟩ := cons_isPrefix_drop hds
    exact ih (commitDatagram_committed hE h hd h1) hds hr

theorem commitRuns_committed {runs : List InboundBatchRun} (h : Committed authentic datagrams s)
    (hr : commitRuns w s runs = some (w', s')) : Committed authentic datagrams s' := by
  induction runs generalizing w s with
  | nil =>
    cases hr
    exact h
  | cons run runs ih =>
    cases run with
    | drop start stop => exact ih h hr
    | routed run =>
      simp only [commitRuns, bind_eq_bind, bind_eq_some_iff, Prod.exists] at hr
      obtain ⟨t1, s1, h1, hr⟩ := hr
      exact ih (commitDatagrams_committed hE h (h.burst ▸ take_prefix _ _) h1) hr

end

def isCommitted (env : Env E) (w : Tunnels E) (s : InboundBatchScratch E) : Bool :=
  s.opened.length == s.datagrams.length &&
    match lockRuns env w s.runs with
    | none => false
    | some (w, locked) => commits w s locked

/-- Only authentic datagrams are noted exactly when the burst is committed or all of them are. -/
theorem commitOrScalar_noted (hE : Authenticates E authentic) (hh : s.handed = [])
    (ha : s.authenticatedDatagrams = []) (ho : Opens s.datagrams s.opened)
    (hr : commitOrScalarTunInboundBatch env w s = some (w', s')) :
    OnlyAuthentic authentic s.datagrams s'.handed s'.authenticatedDatagrams ↔
      isCommitted env w s = true ∨ AllAuthentic authentic s'.handed := by
  unfold commitOrScalarTunInboundBatch at hr
  unfold isCommitted
  by_cases hlen : s.opened.length = s.datagrams.length
  · rw [if_neg (not_not.mpr hlen)] at hr
    simp only [bind_eq_bind, bind_eq_some_iff, Prod.exists] at hr
    obtain ⟨w1, locked, hl, hr⟩ := hr
    simp only [hlen, hl, beq_self_eq_true, Bool.true_and]
    by_cases hc : commits w1 s locked = true
    · rw [if_pos hc] at hr
      simp only [bind_eq_some_iff, Prod.exists, ite_none_left_eq_some, Option.pure_def] at hr
      obtain ⟨w2, s2, hruns, -, hend⟩ := hr
      cases hend
      have h0 : Committed authentic s.datagrams s := by
        refine ⟨rfl, ho, ?_⟩
        rw [hh, ha]
        intro i hi
        cases hi
      exact iff_of_true (commitRuns_committed hE h0 hruns).only (Or.inl hc)
    · rw [if_neg hc] at hr
      obtain ⟨index, hn⟩ := collectTunInboundBatch_noted hE (s := s.giveUp) hh ha hr
      simp only [hc, Bool.false_eq_true, false_or]
      exact hn.only_iff
  · rw [if_pos hlen] at hr
    obtain ⟨index, hn⟩ := collectTunInboundBatch_noted hE hh ha hr
    simp only [beq_eq_false_iff_ne.mpr hlen, Bool.false_and, Bool.false_eq_true, false_or]
    exact hn.only_iff

end Pipelined

section Netstack
variable {authentic : E.Tunn → List Byte → Prop}

theorem netstackDatagrams_noted (auth : Authorization) {datagrams : List WgDatagram}
    (peer : PublicKey) (ds : List WgDatagram) {index : ℕ} (t : WgTunn E) (out : NetstackOut E)
    (h : Noted authentic datagrams index out.handed out.authenticated)
    (hds : ds <+: datagrams.drop index) : Noted authentic datagrams (index + ds.length)
      (netstackDatagrams auth peer index t out ds).2.handed
      (netstackDatagrams auth peer index t out ds).2.authenticated := by
  induction ds generalizing index t out with
  | nil => exact h
  | cons d ds ih =>
    obtain ⟨hd, hds⟩ := cons_isPrefix_drop hds
    rw [netstackDatagrams]
    split_ifs
    · have := ih (netstackDatagram peer index t out d).1
        (netstackDatagram peer index t out d).2 (h.concat hd (Or.inl rfl)) hds
      exact this.mono (by simp only [length_cons]; omega)
    · exact h.mono (Nat.le_add_right _ _)

/-- The netstack path also notes the datagrams that are not authentic. -/
theorem handleInboundWgDatagrams_noted (auth : Authorization) (env : Env E)
    {datagrams : List WgDatagram} (start : ℕ) (w : Tunnels E) (out : NetstackOut E)
    (ds : List WgDatagram) (hds : datagrams.drop start = ds)
    (h : Noted authentic datagrams start out.handed out.authenticated) :
    ∃ index, Noted authentic datagrams index
      (handleInboundWgDatagrams auth env start w out ds).2.handed
      (handleInboundWgDatagrams auth env start w out ds).2.authenticated := by
  fun_induction handleInboundWgDatagrams auth env start w out ds with
  | case1 start w out => exact ⟨start, h⟩
  | case2 start w out d rest same n w1 w2 out2 hm ih =>
    have hrest : datagrams.drop (start + 1 + n) = rest.drop n := by
      rw [Nat.add_assoc, ← drop_drop, hds, Nat.add_comm 1 n, drop_succ_cons]
    have hrun (t : WgTunn E) := netstackDatagrams_noted auth d.peer
      (d :: rest.takeWhile same) t out h (hds ▸ (prefix_cons_inj d).mpr ( takeWhile_prefix _))
    apply ih hrest
    cases ht : w1.byPeer d.peer with
    | none =>
      simp only [ht, Prod.mk.injEq] at hm
      rw [← hm.2]
      exact h.mono (by omega)
    | some tunnel =>
      simp only [ht] at hm
      split_ifs at hm
      · cases hm
        exact (hrun (w1.arena tunnel)).mono (by simp only [length_cons, n]; omega)
      · cases hm
        exact h.mono (by omega)

end Netstack

/-- On each receive path only authentic datagrams are noted, whatever the burst, scratch, tunnels,
authorization and what others do, iff the engine takes all that it is given as authentic. The
pipelined path also notes only authentic ones whenever it commits. -/
theorem onlyAuthentic_iff {authentic : E.Tunn → List Byte → Prop} (hE : Authenticates E authentic)
    (w : Tunnels E) (s : InboundBatchScratch E) (datagrams : List WgDatagram) :
    (∀ (env : Env E) (w' : Tunnels E) (s' : InboundBatchScratch E),
      collectTunInboundBatch env w (s.load datagrams) = some (w', s') →
      (OnlyAuthentic authentic datagrams s'.handed s'.authenticatedDatagrams ↔
        AllAuthentic authentic s'.handed)) ∧
    (∀ (worker pump : Env E) (w1 w' : Tunnels E) (s1 s' : InboundBatchScratch E),
      openTunInboundBatch worker w (s.load datagrams) = some (w1, s1) →
      commitOrScalarTunInboundBatch pump w1 s1 = some (w', s') →
      (OnlyAuthentic authentic datagrams s'.handed s'.authenticatedDatagrams ↔
        isCommitted pump w1 s1 = true ∨ AllAuthentic authentic s'.handed)) ∧
    ∀ (env : Env E) (auth : Authorization) (w' : Tunnels E) (out : NetstackOut E),
      handleInboundWgDatagrams auth env 0 w ⟨[], [], [], []⟩ datagrams = (w', out) →
      (OnlyAuthentic authentic datagrams out.handed out.authenticated ↔
        AllAuthentic authentic out.handed) := by
  refine ⟨fun env w' s' hr => ?_, fun worker pump w1 w' s1 s' hopen hr => ?_,
    fun env auth w' out hr => ?_⟩
  · obtain ⟨index, hn⟩ := collectTunInboundBatch_noted hE rfl rfl hr
    exact hn.only_iff
  · obtain ⟨hd, hh, ha, ho⟩ := openTunInboundBatch_opens rfl hopen
    rw [← hd] at ho
    have := commitOrScalar_noted hE hh ha ho hr
    rwa [hd] at this
  · obtain ⟨index, hn⟩ := handleInboundWgDatagrams_noted auth env 0 w ⟨[], [], [], []⟩
      datagrams rfl (show Noted authentic datagrams 0 [] [] from noted_nil datagrams)
    rw [hr] at hn
    exact hn.only_iff

/-- What the plain engine takes as authentic: numbers that were not taken before. -/
def plainAuthentic (t : plain.Tunn) : List Byte → Prop
  | [] => False
  | n :: _ => n ∉ (show List Byte from t)

theorem plain_authenticates : Authenticates plain plainAuthentic where
  rejected t d h := by
    cases d with
    | nil => exact id
    | cons n body =>
      intro hn
      simp only [plain, if_neg (show n ∉ (show List Byte from t) from hn)] at h
      split_ifs at h
  decapsulated t d buf h := by
    cases d with
    | nil => cases h
    | cons n body =>
      intro hn
      simp [plain, hn] at h
  queued t buf h := by cases h
  committed t t' d prepared buf opened out len ho hc := by
    cases d with
    | nil => cases ho
    | cons n body =>
      simp only [plain] at ho hc
      split_ifs at ho with hm
      cases ho
      intro hn
      simp [← hm, hn] at hc

def plainTunnels (taken : List Byte) : Tunnels plain := ⟨fun _ => some 0, fun _ => ⟨taken, 0⟩⟩

def fromDirect (data : List Byte) : WgDatagram := ⟨1, data, 0, some (.direct (.v4 0 0))⟩

theorem buildInboundRuns_single (tunnels : PublicKey → Option ℕ) (d : WgDatagram) (tunnel : ℕ)
    (h : tunnels d.peer = some tunnel) :
    buildInboundRuns tunnels 0 [d] = [.routed ⟨d.peer, tunnel, 0, 1⟩] := by
  simp [buildInboundRuns, h]

/-- A fresh datagram is noted, and it is authentic. -/
theorem onlyAuthentic_iff_fresh : Authenticates plain plainAuthentic ∧
    ∃ w s, collectTunInboundBatch .quiet (plainTunnels [])
        ((new 0).load [fromDirect [7]]) = some (w, s) ∧
      OnlyAuthentic plainAuthentic [fromDirect [7]] s.handed s.authenticatedDatagrams := by
  have hruns := buildInboundRuns_single (plainTunnels []).byPeer (fromDirect [7]) 0 rfl
  have h : (collectTunInboundBatch .quiet (plainTunnels [])
      ((new 0).load [fromDirect [7]])).map (·.2.handed) = some [⟨0, fromDirect [7], []⟩] := by
    simp only [collectTunInboundBatch, Env.quiet, load, hruns]
    rfl
  obtain ⟨⟨w, s⟩, hr, hs⟩ := map_eq_some_iff.mp h
  have hall : AllAuthentic plainAuthentic s.handed := by
    intro x hx
    rw [show s.handed = _ from hs, mem_singleton] at hx
    rw [hx]
    exact not_mem_nil
  exact ⟨plain_authenticates, w, s, hr,
    ((onlyAuthentic_iff plain_authenticates (plainTunnels []) (.new 0) _).1 _ _ _ hr).mpr hall⟩

/-- A replayed datagram, answered with an error, is noted on the scalar path and that of the
netstack, and confirms a direct path. -/
theorem replay_noted : (plain.decapsulate [7] [7, 1]).1 = .err ∧
    (∃ w s, collectTunInboundBatch .quiet (plainTunnels [7])
        ((new 0).load [fromDirect [7, 1]]) = some (w, s) ∧
      s.handed = [⟨0, fromDirect [7, 1], [7]⟩] ∧ s.authenticatedDatagrams = [0]) ∧
    (handleInboundWgDatagrams ⟨fun _ => true, fun _ => true, fun _ => true⟩ .quiet 0 (plainTunnels [7])
      ⟨[], [], [], []⟩ [fromDirect [7, 1]]).2.authenticated = [0] ∧
    noteAuthenticatedWgTransport (fun _ _ => true) (fun _ => true) (fromDirect [7, 1]) =
      some (1, .direct (.v4 0 0)) := by
  refine ⟨rfl, ?_, ?_, rfl⟩
  · have hruns := buildInboundRuns_single (plainTunnels [7]).byPeer (fromDirect [7, 1]) 0 rfl
    have h : (collectTunInboundBatch .quiet (plainTunnels [7])
        ((new 0).load [fromDirect [7, 1]])).map
          (fun r => (r.2.handed, r.2.authenticatedDatagrams)) =
        some ([⟨0, fromDirect [7, 1], [7]⟩], [0]) := by
      simp only [collectTunInboundBatch, Env.quiet, load, hruns]
      rfl
    obtain ⟨⟨w, s⟩, hr, hs⟩ := map_eq_some_iff.mp h
    exact ⟨w, s, hr, Prod.mk.inj hs⟩
  · simp only [handleInboundWgDatagrams, takeWhile_nil, drop_nil]
    rfl

end Rustscale.Inbound
