import Rustscale.Lib.Octets

/-! Texts as bytes: their encoding, a reader that refuses what is no text, and one that replaces
it. -/
namespace Utf8
open Octets List UInt8

def utf8 (s : String) : List Byte := s.toByteArray.data.toList.map toBitVec

def ofUtf8 (b : List Byte) : Option String :=
  String.fromUTF8? ⟨(b.map UInt8.ofBitVec).toArray⟩

theorem ofUtf8_utf8 (s : String) : ofUtf8 (utf8 s) = some s := by
  have harr : (⟨((utf8 s).map ofBitVec).toArray⟩ : ByteArray) = s.toByteArray := by
    have hid : ofBitVec ∘ toBitVec = id := rfl
    simp [utf8, hid]
  simp [ofUtf8, harr, String.fromUTF8?, s.isValidUTF8, String.fromUTF8]

/-- The length of a character that begins with a byte; with some bytes none does. -/
def charWidth (b : Byte) : ℕ :=
  if b < 0x80 then 1
  else if b < 0xC2 then 0
  else if b < 0xE0 then 2
  else if b < 0xF0 then 3
  else if b < 0xF5 then 4
  else 0

def isContinuation (b : Byte) : Bool := decide (0x80 ≤ b ∧ b < 0xC0)

/-- The second byte rules out overlong forms, surrogates, and what is past the last character. -/
def isSecond (first b : Byte) : Bool :=
  isContinuation b && decide ((first = 0xE0 → 0xA0 ≤ b) ∧ (first = 0xED → b < 0xA0) ∧
    (first = 0xF0 → 0x90 ≤ b) ∧ (first = 0xF4 → b < 0x90))

/-- The bytes after the first that may belong to its character. -/
def following (first : Byte) : List Byte → ℕ
  | [] => 0
  | b :: rest =>
    if 1 < charWidth first ∧ isSecond first b then
      ((rest.take (charWidth first - 2)).takeWhile isContinuation).length + 1
    else 0

/-- Copy characters, with `keep` bytes to come of the current one, and put a mark for the longest
beginning of a character, or the one byte, that is none, with `skip` bytes to come of it. -/
def lossyFrom : (keep skip : ℕ) → List Byte → List Byte
  | _, _, [] => []
  | keep + 1, _, b :: rest => b :: lossyFrom keep 0 rest
  | 0, skip + 1, _ :: rest => lossyFrom 0 skip rest
  | 0, 0, b :: rest =>
    if following b rest + 1 = charWidth b then b :: lossyFrom (following b rest) 0 rest
    else 0xEF :: 0xBF :: 0xBD :: lossyFrom 0 (following b rest) rest

/-- `String::from_utf8_lossy`. -/
def lossy : List Byte → List Byte := lossyFrom 0 0

theorem lossyFrom_keep (bs rest : List Byte) :
    lossyFrom bs.length 0 (bs ++ rest) = bs ++ lossy rest := by
  induction bs with
  | nil => rfl
  | cons b bs ih => rw [cons_append, length_cons, lossyFrom, ih, cons_append]

theorem isContinuation_ofNat (n : ℕ) : isContinuation (.ofNat 8 (n % 64 + 128)) = true := by
  simp [isContinuation, BitVec.le_def, BitVec.lt_def]
  omega

theorem charWidth_ofNat {n k : ℕ} (h : (k = 1 ∧ n < 128) ∨ (k = 2 ∧ 194 ≤ n ∧ n < 224) ∨
    (k = 3 ∧ 224 ≤ n ∧ n < 240) ∨ (k = 4 ∧ 240 ≤ n ∧ n < 245)) : charWidth (.ofNat 8 n) = k := by
  have hn : n % 256 = n := by omega
  simp [charWidth, BitVec.lt_def, hn]
  split_ifs <;> omega

/-- A character is a first byte and those that follow it, whatever comes then. -/
theorem char_bytes (c : Char) : ∃ b bs, (String.utf8EncodeChar c).map toBitVec = b :: bs ∧
    charWidth b = bs.length + 1 ∧ ∀ rest, following b (bs ++ rest) = bs.length := by
  have hvalid := c.valid
  simp only [UInt32.isValidChar, Nat.isValidChar] at hvalid
  unfold String.utf8EncodeChar
  generalize c.val.toNat = v at hvalid
  dsimp only
  split_ifs with h1 h2 h3
  · have hw : charWidth (.ofNat 8 v) = 1 := charWidth_ofNat (by omega)
    refine ⟨.ofNat 8 v, [], rfl, hw, fun rest => ?_⟩
    cases rest <;> simp [following, hw]
  · have hw : charWidth (.ofNat 8 (v / 64 % 32 + 192)) = 2 := charWidth_ofNat (by omega)
    refine ⟨_, _, rfl, hw, fun rest => ?_⟩
    change following (.ofNat 8 _) (.ofNat 8 _ :: rest) = 1
    simp [following, hw, isSecond, isContinuation_ofNat, BitVec.le_def, BitVec.lt_def, ← BitVec.toNat_inj]
    omega
  · have hw : charWidth (.ofNat 8 (v / 4096 % 16 + 224)) = 3 := charWidth_ofNat (by omega)
    refine ⟨_, _, rfl, hw, fun rest => ?_⟩
    change following (.ofNat 8 _) (.ofNat 8 _ :: .ofNat 8 _ :: rest) = 2
    simp [following, hw, isSecond, isContinuation_ofNat, BitVec.le_def, BitVec.lt_def, ← BitVec.toNat_inj]
    omega
  · have hw : charWidth (.ofNat 8 (v / 262144 % 8 + 240)) = 4 := charWidth_ofNat (by omega)
    refine ⟨_, _, rfl, hw, fun rest => ?_⟩
    change following (.ofNat 8 _) (.ofNat 8 _ :: .ofNat 8 _ :: .ofNat 8 _ :: rest) = 3
    simp [following, hw, isSecond, isContinuation_ofNat, BitVec.le_def, BitVec.lt_def, ← BitVec.toNat_inj]
    omega

theorem lossy_char (c : Char) (rest : List Byte) :
    lossy ((String.utf8EncodeChar c).map toBitVec ++ rest) =
      (String.utf8EncodeChar c).map toBitVec ++ lossy rest := by
  obtain ⟨b, bs, heq, hwidth, hfollowing⟩ := char_bytes c
  rw [heq, cons_append, lossy, lossyFrom, hfollowing, if_pos hwidth.symm, lossyFrom_keep]
  rfl

theorem utf8_ofList (cs : List Char) :
    utf8 (.ofList cs) = cs.flatMap fun c => (String.utf8EncodeChar c).map toBitVec := by
  simp [utf8, String.toByteArray_ofList, utf8Encode, map_flatMap]

/-- Text stays as it is, whatever follows it. -/
theorem lossy_append (text : String) (rest : List Byte) :
    lossy (utf8 text ++ rest) = utf8 text ++ lossy rest := by
  obtain ⟨cs, rfl⟩ : ∃ cs, text = .ofList cs := ⟨text.toList, String.ofList_toList.symm⟩
  rw [utf8_ofList]
  induction cs with
  | nil => rfl
  | cons c cs ih => rw [flatMap_cons, append_assoc, lossy_char, ih, append_assoc]

end Utf8
