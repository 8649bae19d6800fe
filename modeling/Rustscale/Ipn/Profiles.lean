import Mathlib.Tactic

/-! Login profiles: the memory of the manager, the files of its state directory, and the prefs that
each profile should have. -/
namespace Rustscale.Ipn

open Option List

structure LoginProfile (ι : Type) where
  id : ι
  name : String
  deriving DecidableEq

/-- The files `profiles.json`, `current-profile` and `prefs.json`. -/
structure StateDir (ι π : Type) where
  profiles : Option (List (LoginProfile ι)) := none
  current : Option ι := none
  prefs : Option π := none

/-- The manager of profiles over a directory; the preferences are kept in memory too. -/
structure ProfileManager (ι π : Type) where
  stateDir : StateDir ι π
  known : List (LoginProfile ι)
  currentId : Option ι
  prefs : π

/-- A new profile comes with its fresh identifier; the process may also end and start again. -/
inductive ProfileCall (ι π : Type) where
  | newProfile (id : ι) (name : String)
  | switchProfile (id : ι)
  | setPrefs (prefs : π)
  | deleteProfile (id : ι)
  | reopen

variable {ι π : Type} [DecidableEq ι] [Inhabited π]

namespace ProfileManager

def new (dir : StateDir ι π) : ProfileManager ι π :=
  { stateDir := dir
    known := dir.profiles.getD []
    currentId := dir.current
    prefs := dir.prefs.getD default }

variable (m : ProfileManager ι π)

def profileById (id : ι) : Option (LoginProfile ι) := m.known.find? (·.id = id)

def currentProfile : Option (LoginProfile ι) := m.currentId.bind m.profileById

/-- A switch to an unknown profile is refused. -/
def switchProfile (id : ι) : ProfileManager ι π :=
  if m.currentId = some id then m
  else match m.profileById id with
    | none => m
    | some _ =>
      { m with
        currentId := some id
        prefs := m.stateDir.prefs.getD default
        stateDir := { m.stateDir with current := some id } }

def newProfile (id : ι) (name : String) : ProfileManager ι π :=
  let known := m.known ++ [⟨id, name⟩]
  { known
    currentId := some id
    prefs := default
    stateDir := { m.stateDir with profiles := some known, current := some id } }

def deleteProfile (id : ι) : ProfileManager ι π :=
  let known := m.known.filter (·.id ≠ id)
  { m with
    known
    currentId := if m.currentId = some id then none else m.currentId
    stateDir := { m.stateDir with profiles := some known } }

def setPrefs (prefs : π) : ProfileManager ι π :=
  { m with prefs, stateDir := { m.stateDir with prefs := some prefs } }

def call : ProfileCall ι π → ProfileManager ι π
  | .newProfile id name => m.newProfile id name
  | .switchProfile id => m.switchProfile id
  | .setPrefs prefs => m.setPrefs prefs
  | .deleteProfile id => m.deleteProfile id
  | .reopen => new m.stateDir

end ProfileManager

/-- A manager together with what was last set for each profile. -/
structure Tracked (ι π : Type) where
  manager : ProfileManager ι π
  last : ι → π

namespace Tracked

def start : Tracked ι π := ⟨.new {}, fun _ => default⟩

def call (s : Tracked ι π) (c : ProfileCall ι π) : Tracked ι π where
  manager := s.manager.call c
  last := match c, s.manager.currentProfile with
    | .setPrefs prefs, some profile => Function.update s.last profile.id prefs
    | _, _ => s.last

def run (calls : List (ProfileCall ι π)) : Tracked ι π := calls.foldl call start

/-- The current profile has its own prefs, and a manager opened now is the same. -/
structure Isolated (s : Tracked ι π) : Prop where
  own : ∀ profile ∈ s.manager.currentProfile, s.manager.prefs = s.last profile.id
  known : (ProfileManager.new s.manager.stateDir).known = s.manager.known
  current : (ProfileManager.new s.manager.stateDir).currentProfile = s.manager.currentProfile
  prefs : (ProfileManager.new s.manager.stateDir).prefs = s.manager.prefs

/-- A profile only becomes current when the prefs of the manager are already its own. -/
def Agreed (s : Tracked ι π) : ProfileCall ι π → Prop
  | .newProfile id _ => s.manager.prefs = default ∧ s.last id = default
  | .switchProfile id =>
    s.manager.currentId ≠ some id → s.manager.profileById id ≠ none → s.manager.prefs = s.last id
  | _ => True

/-- The files of the profiles are right, but the marker may name a deleted profile. -/
structure Marked (s : Tracked ι π) : Prop where
  known : s.manager.stateDir.profiles.getD [] = s.manager.known
  current : s.manager.stateDir.current = s.manager.currentId ∨
    s.manager.currentId = none ∧ s.manager.stateDir.current.bind s.manager.profileById = none

end Tracked

open Tracked ProfileManager

namespace ProfileManager
variable {m : ProfileManager ι π}

omit [Inhabited π] in
theorem profileById_deleteProfile (id id' : ι) :
    (m.deleteProfile id').profileById id = if id = id' then none else m.profileById id := by
  rw [profileById, deleteProfile, find?_filter]
  split_ifs with h
  · rw [find?_eq_none]
    simp [h]
  · rw [profileById]
    congr 1
    funext p
    by_cases hp : p.id = id <;> simp [hp, h]

omit [Inhabited π] in
theorem currentProfile_deleteProfile (id : ι) : (m.deleteProfile id).currentProfile =
    if m.currentId = some id then none else m.currentProfile := by
  rw [currentProfile, currentProfile]
  cases hc : m.currentId with
  | none => simp [deleteProfile, hc]
  | some id' =>
    by_cases hid : id' = id
    · simp [deleteProfile, hc, hid]
    · have hcur : (m.deleteProfile id).currentId = some id' := by simp [deleteProfile, hc, hid]
      rw [hcur, bind_some, profileById_deleteProfile, if_neg hid, if_neg (by simp [hid])]
      rfl

theorem currentProfile_newProfile (id : ι) (name : String) :
    ∃ profile, (m.newProfile id name).currentProfile = some profile ∧ profile.id = id := by
  have hsome : ((m.newProfile id name).profileById id).isSome := by
    rw [profileById, find?_isSome]
    exact ⟨⟨id, name⟩, by simp [newProfile], by simp⟩
  obtain ⟨profile, hp⟩ := isSome_iff_exists.mp hsome
  exact ⟨profile, hp, by simpa using find?_some hp⟩

end ProfileManager

variable {s : Tracked ι π}

/-- Step: what is stored stays what the manager knows. -/
theorem Tracked.Marked.call (h : s.Marked) (c : ProfileCall ι π) : (s.call c).Marked := by
  cases c with
  | newProfile | reopen => exact ⟨rfl, .inl rfl⟩
  | setPrefs => exact ⟨h.known, h.current⟩
  | switchProfile id =>
    simp only [Tracked.call, ProfileManager.call, ProfileManager.switchProfile]
    split_ifs
    · exact ⟨h.known, h.current⟩
    · split
      · exact ⟨h.known, h.current⟩
      · exact ⟨h.known, .inl rfl⟩
  | deleteProfile id =>
    have hgone : ∀ id', id' = id ∨ s.manager.profileById id' = none →
        (s.manager.deleteProfile id).profileById id' = none := by
      intro id' hor
      rw [profileById_deleteProfile]
      split_ifs with hid
      · rfl
      · exact hor.resolve_left hid
    refine ⟨rfl, ?_⟩
    rcases h.current with hcur | ⟨hnone, hcur⟩
    · by_cases hid : s.manager.currentId = some id
      · refine .inr ⟨if_pos hid, bind_eq_none_iff.mpr fun id' hid' => hgone id' (.inl ?_)⟩
        exact some.inj (hid'.symm.trans (hcur.trans hid))
      · exact .inl (hcur.trans (if_neg hid).symm)
    · refine .inr ⟨by simp [Tracked.call, ProfileManager.call, ProfileManager.deleteProfile, hnone],
        bind_eq_none_iff.mpr fun id' hid' => hgone id' (.inr ?_)⟩
      exact bind_eq_none_iff.mp hcur id' hid'

theorem Tracked.Marked.isolated_iff (h : s.Marked) : s.Isolated ↔
    (∀ profile ∈ s.manager.currentProfile, s.manager.prefs = s.last profile.id) ∧
      s.manager.stateDir.prefs.getD default = s.manager.prefs := by
  refine ⟨fun h' => ⟨h'.own, h'.prefs⟩, fun ⟨hown, hprefs⟩ => ⟨hown, h.known, ?_, hprefs⟩⟩
  have hfind : (new s.manager.stateDir).profileById = s.manager.profileById := by
    funext id
    rw [profileById, new, h.known, profileById]
  rw [currentProfile, hfind, currentProfile]
  rcases h.current with hcur | ⟨hnone, hcur⟩
  · exact congrArg (·.bind s.manager.profileById) hcur
  · rw [hnone]
    exact hcur

/-- A call keeps the profiles apart exactly if it meets the condition. -/
theorem isolated_call_iff (hm : s.Marked) (h : s.Isolated) (c : ProfileCall ι π) :
    (s.call c).Isolated ↔ s.Agreed c := by
  have hfile : s.manager.stateDir.prefs.getD default = s.manager.prefs := h.prefs
  rw [(hm.call c).isolated_iff]
  cases c with
  | newProfile id name =>
    obtain ⟨profile, hcur, hid⟩ := s.manager.currentProfile_newProfile id name
    constructor
    · rintro ⟨hown, hprefs⟩
      exact ⟨hfile.symm.trans hprefs, (hid ▸ hown profile hcur).symm⟩
    · rintro ⟨hdefault, hlast⟩
      refine ⟨fun q hq => ?_, hfile.trans hdefault⟩
      obtain rfl := Option.mem_unique hcur hq
      exact (hid ▸ hlast).symm
  | switchProfile id =>
    simp only [Tracked.call, ProfileManager.call, ProfileManager.switchProfile, Agreed]
    split_ifs with hsame
    · exact ⟨fun _ hne => absurd hsame hne, fun _ => ⟨h.own, h.prefs⟩⟩
    · cases hfind : s.manager.profileById id with
      | none => exact ⟨fun _ _ hne => absurd rfl hne, fun _ => ⟨h.own, h.prefs⟩⟩
      | some profile =>
        have hid : profile.id = id := by simpa using List.find?_some hfind
        have hcur : ∀ q ∈ (some id).bind s.manager.profileById, profile = q :=
          fun q hq => Option.mem_unique hfind hq
        refine ⟨fun ⟨hown, _⟩ _ _ => ?_, fun hagreed => ⟨fun q hq => ?_, rfl⟩⟩
        · exact hfile.symm.trans (hid ▸ hown profile hfind)
        · rw [← hcur q hq, hid]
          exact hfile.trans (hagreed hsame (by simp))
  | setPrefs prefs =>
    refine ⟨fun _ => trivial, fun _ => ⟨fun profile hp => ?_, rfl⟩⟩
    have hp' : s.manager.currentProfile = some profile := hp
    simp [Tracked.call, hp', ProfileManager.call, ProfileManager.setPrefs]
  | deleteProfile id =>
    refine ⟨fun _ => trivial, fun _ => ⟨fun profile hp => ?_, hfile⟩⟩
    have hp' := (ProfileManager.currentProfile_deleteProfile id).symm.trans hp
    split_ifs at hp'
    exact h.own profile hp'
  | reopen =>
    refine ⟨fun _ => trivial, fun _ => ⟨fun profile hp => ?_, rfl⟩⟩
    exact hfile.trans (h.own profile (h.current ▸ hp))

theorem marked_run (calls : List (ProfileCall ι π)) : (run calls).Marked := by
  induction calls using reverseRecOn with
  | nil => exact ⟨rfl, .inl rfl⟩
  | append_singleton calls c ih =>
    rw [run, foldl_append]
    exact ih.call c

/-- The profiles stay apart throughout a sequence of calls exactly if each call meets the condition.
-/
theorem profiles_isolated_iff (calls : List (ProfileCall ι π)) :
    (∀ front back, calls = front ++ back → (run front).Isolated) ↔
      ∀ front c back, calls = front ++ c :: back → (run front).Agreed c := by
  have hrun : ∀ front c, run (front ++ [c]) = (run front).call (c : ProfileCall ι π) := by
    intro front c
    rw [run, foldl_append]
    rfl
  constructor
  · intro h front c back heq
    rw [← isolated_call_iff (marked_run front) (h front (c :: back) heq), ← hrun]
    exact h (front ++ [c]) back (by simp [heq])
  · intro h front
    induction front using reverseRecOn with
    | nil => exact fun _ _ => ⟨nofun, rfl, rfl, rfl⟩
    | append_singleton front c ih =>
      intro back heq
      rw [hrun, isolated_call_iff (marked_run front) (ih (c :: back) (by simp [heq]))]
      exact h front c back (by simp [heq])

/-- The prefs set under the second profile are loaded for the first, and a third has its defaults
only until the next start. -/
theorem prefs_shared :
    let first := run [.newProfile 1 "a", .setPrefs true, .newProfile 2 "b", .setPrefs false,
      .switchProfile (1 : ℕ)]
    let third := run [.newProfile 1 "a", .setPrefs true, .newProfile (3 : ℕ) "c"]
    (first.manager.currentProfile = some ⟨1, "a"⟩ ∧ first.last 1 = true ∧
      first.manager.prefs = false) ∧
    third.manager.prefs = false ∧ (third.call .reopen).manager.prefs = true := by
  decide

end Rustscale.Ipn
