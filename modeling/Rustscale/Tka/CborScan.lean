import Rustscale.Tka.Cbor

/-! What the scan lets through: well-formed items of definite length within the limits. -/
namespace Rustscale.Tka
open Octets Bytes Checks Cbor List Option Ciborium Utf8

section Scan
variable {major argument : ℕ} {data rest : Bytes}

theorem scanFixed_eq_ok {w additional : ℕ} (ha : 24 ≤ additional) (hw : width additional = some w)
    (m : ℕ) :
    (readFixed w data).map (fun r => (m, r)) = .ok (major, argument, rest) ↔
      ∃ a, readArgument m additional data = some ⟨major, a, argument, rest⟩ := by
  simp only [readFixed, readArgument, if_neg (not_lt.mpr ha), hw]
  split_ifs with hlen
  · simp only [Except.map, Except.ok.injEq, Prod.mk.injEq, some.injEq, Head.mk.injEq]
    constructor
    · rintro ⟨hm, harg, hr⟩
      exact ⟨additional, hm, rfl, harg, hr⟩
    · rintro ⟨_, hm, -, harg, hr⟩
      exact ⟨hm, harg, hr⟩
  · simp [Except.map]

theorem scanHead_eq_ok :
    scanHead data = .ok (major, argument, rest) ↔
      ∃ additional, readHead data = some ⟨major, additional, argument, rest⟩ := by
  cases data with
  | nil => simp [scanHead, readHead]
  | cons initial data =>
    have hlt : initial.toNat % 32 < 32 := Nat.mod_lt _ (by norm_num)
    simp only [scanHead, readHead]
    generalize initial.toNat % 32 = a at hlt
    split
    iterate 4 · exact scanFixed_eq_ok (by norm_num) rfl _
    · simp [readArgument, width]
    · next h24 h25 h26 h27 h31 =>
      by_cases ha : a < 24
      · simp only [readArgument, if_pos ha, if_pos (Nat.le_of_lt_succ ha), Except.ok.injEq,
          Prod.mk.injEq, some.injEq, Head.mk.injEq]
        constructor
        · rintro ⟨hm, harg, hr⟩
          exact ⟨a, hm, rfl, harg, hr⟩
        · rintro ⟨_, hm, -, harg, hr⟩
          exact ⟨hm, harg, hr⟩
      · have hw : width a = none := by
          unfold width
          split <;> simp_all
        simp [readArgument, ha, hw, show ¬ a ≤ 23 by omega]

end Scan

section Grammar
variable {major argument levels : ℕ} {data rest : Bytes} {f : Bytes → Except DecodeError Bytes}
  {item : Bytes → Prop}

/-- The first byte has the major type and the argument, or the number of bytes of the argument. -/
def IsHead (major argument : ℕ) (bytes : Bytes) : Prop :=
  ∃ initial arg, bytes = initial :: arg ∧ initial.toNat / 32 = major ∧
    (initial.toNat % 32 < 24 ∧ arg = [] ∧ initial.toNat % 32 = argument ∨
      width (initial.toNat % 32) = some arg.length ∧ ofBytes .big arg = argument)

def Items (item : Bytes → Prop) (n : ℕ) (bytes : Bytes) : Prop :=
  ∃ items : List Bytes, items.length = n ∧ items.flatten = bytes ∧ ∀ x ∈ items, item x

/-- What follows the head of an item. If `strict` is true then a simple value below 32 has no second
byte. -/
def Body (strict : Prop) (item : Bytes → Prop) (argument : ℕ) (hd body : Bytes) : ℕ → Prop
  | 0 | 1 => body = []
  | 2 | 3 => body.length = argument
  | 4 => argument ≤ maxArrayElements ∧ Items item argument body
  | 5 => argument ≤ maxMapPairs ∧ Items item (2 * argument) body
  | 7 => body = [] ∧ (strict → hd.length = 2 → 32 ≤ argument)
  | _ => False

/-- A well-formed item of definite length without tags, within the limits. -/
def Item (strict : Prop) : ℕ → Bytes → Prop
  | 0, _ => False
  | levels + 1, bytes => ∃ major argument hd body, bytes = hd ++ body ∧ IsHead major argument hd ∧
    Body strict (Item strict levels) argument hd body major

/-- The scanner accepts exactly the heads of the grammar. -/
theorem scanHead_iff : scanHead data = .ok (major, argument, rest) ↔
    ∃ hd, data = hd ++ rest ∧ IsHead major argument hd := by
  rw [scanHead_eq_ok]
  constructor
  · rintro ⟨a, h⟩
    cases data with
    | nil => cases h
    | cons initial data =>
      simp only [readHead, readArgument] at h
      split_ifs at h with hsmall
      · cases h
        exact ⟨[initial], rfl, initial, [], rfl, rfl, .inl ⟨hsmall, rfl, rfl⟩⟩
      split at h
      · cases h
      next w hw =>
      split_ifs at h with hlen
      cases h
      exact ⟨initial :: data.take w, by simp, initial, _, rfl, rfl,
        .inr ⟨by rwa [length_take_of_le hlen], rfl⟩⟩
  · rintro ⟨_, rfl, initial, arg, rfl, rfl, ⟨hsmall, rfl, rfl⟩ | ⟨hw, rfl⟩⟩
    · exact ⟨initial.toNat % 32, by simp [readHead, readArgument, hsmall]⟩
    · have hwide : ¬initial.toNat % 32 < 24 := by
        unfold width at hw
        split at hw <;> simp_all
      exact ⟨initial.toNat % 32, by simp [readHead, readArgument, hwide, hw]⟩

theorem times_eq_ok_iff (h : ∀ {data rest}, f data = .ok rest ↔ ∃ x, data = x ++ rest ∧ item x)
    (n : ℕ) : times n f data = .ok rest ↔ ∃ body, data = body ++ rest ∧ Items item n body := by
  induction n generalizing data with
  | zero => simp [times, Items]
  | succ n ih =>
    simp only [times, bind_eq_ok, h, ih]
    constructor
    · rintro ⟨_, ⟨x, rfl, hx⟩, _, rfl, items, rfl, rfl, hitems⟩
      exact ⟨x ++ items.flatten, by simp, x :: items, rfl, rfl, forall_mem_cons.mpr ⟨hx, hitems⟩⟩
    · rintro ⟨_, rfl, _ | ⟨x, items⟩, hlen, rfl, hitems⟩
      · cases hlen
      · obtain ⟨hx, hitems⟩ := forall_mem_cons.mp hitems
        exact ⟨_, ⟨x, by simp, hx⟩, _, rfl, items, Nat.succ.inj hlen, rfl, hitems⟩

theorem times_pairs (n : ℕ) : times n (fun r => f r >>= f) data = times (2 * n) f data := by
  induction n generalizing data with
  | zero => rfl
  | succ n ih =>
    simp only [times, Nat.mul_succ, ih]
    cases f data <;> rfl

theorem drop_eq_ok_iff {reason : DecodeError} :
    (if argument ≤ data.length then Except.ok (data.drop argument) else .error reason) = .ok rest ↔
      ∃ body, data = body ++ rest ∧ body.length = argument := by
  constructor
  · intro h
    split_ifs at h with hle
    cases h
    exact ⟨data.take argument, by simp, length_take_of_le hle⟩
  · rintro ⟨body, rfl, rfl⟩
    simp

theorem scanCborItem_head_iff {hd mid : Bytes} (hhd : IsHead major argument hd)
    (h : ∀ {data rest}, scanCborItem levels data = .ok rest ↔
      ∃ x, data = x ++ rest ∧ Item False levels x) :
    scanCborItem (levels + 1) (hd ++ mid) = .ok rest ↔
      ∃ body, mid = body ++ rest ∧ Body False (Item False levels) argument hd body major := by
  simp only [scanCborItem, scanHead_iff.mpr ⟨hd, rfl, hhd⟩, ok_bind]
  rcases major with _ | _ | _ | _ | _ | _ | _ | _ | major
  case succ.succ.zero | succ.succ.succ.zero => exact drop_eq_ok_iff
  case succ.succ.succ.succ.zero =>
    by_cases hle : argument ≤ maxArrayElements
    · simp [Body, hle, not_lt.mpr hle, times_eq_ok_iff h]
    · simp [Body, hle, not_le.mp hle]
  case succ.succ.succ.succ.succ.zero =>
    by_cases hle : argument ≤ maxMapPairs
    · simp [Body, hle, not_lt.mpr hle, times_pairs, times_eq_ok_iff h]
    · simp [Body, hle, not_le.mp hle]
  all_goals simp [Body]

/-- The scan accepts exactly the inputs that begin with a well-formed item within the limits, and
stops at its end. Simple values below 32 may have a second byte. -/
theorem scanCborItem_eq_ok_iff : scanCborItem levels data = .ok rest ↔
    ∃ item, data = item ++ rest ∧ Item False levels item := by
  induction levels generalizing data rest with
  | zero => simp [scanCborItem, Item]
  | succ levels ih =>
    constructor
    · intro h
      have hhead := h
      simp only [scanCborItem, bind_eq_ok] at hhead
      obtain ⟨⟨major, argument, mid⟩, hhead, -⟩ := hhead
      obtain ⟨hd, rfl, hhd⟩ := scanHead_iff.mp hhead
      obtain ⟨body, rfl, hbody⟩ := (scanCborItem_head_iff hhd ih).mp h
      exact ⟨hd ++ body, by simp, major, argument, hd, body, rfl, hhd, hbody⟩
    · rintro ⟨_, rfl, major, argument, hd, body, rfl, hhd, hbody⟩
      rw [append_assoc]
      exact (scanCborItem_head_iff hhd ih).mpr ⟨body, rfl, hbody⟩

/-- A simple value of 16 in two bytes, which is not well-formed. -/
theorem scanCborItem_twoByteSimple : scanCborItem (maxNesting + 1) [0xF8, 0x10] = .ok [] ∧
    ∀ item rest, [0xF8, 0x10] = item ++ rest → ¬Item True (maxNesting + 1) item := by
  refine ⟨rfl, ?_⟩
  rintro _ rest heq ⟨_, _, _, body, rfl, ⟨initial, arg, rfl, rfl, harg⟩, hbody⟩
  obtain ⟨rfl, htail⟩ := cons.inj heq
  rcases harg with ⟨hsmall, -, -⟩ | ⟨hw, rfl⟩
  · exact absurd hsmall (by decide)
  · obtain ⟨x, rfl⟩ := length_eq_one_iff.mp (some.inj hw).symm
    obtain ⟨rfl, -⟩ := cons.inj htail
    exact absurd (hbody.2 trivial rfl) (by decide)

end Grammar

end Rustscale.Tka
