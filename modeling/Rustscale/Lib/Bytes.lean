import Rustscale.Lib.Octets

/-! Numbers as bytes of either byte order, and writing bytes into a buffer. -/
namespace Bytes
open Octets List Nat

inductive Endian where
  | little
  | big
  deriving DecidableEq

def ofBytes : Endian → List Byte → ℕ
  | .little, bs => bs.foldr (fun b n => b.toNat + 256 * n) 0
  | .big, bs => bs.foldl (fun n b => 256 * n + b.toNat) 0

def toBytes : Endian → ℕ → ℕ → List Byte
  | _, 0, _ => []
  | .little, n + 1, x => BitVec.ofNat 8 x :: toBytes .little n (x / 256)
  | .big, n + 1, x => toBytes .big n (x / 256) ++ [BitVec.ofNat 8 x]

variable (e : Endian) (data bs : List Byte)

theorem foldl_big_eq_zero : ∀ n : ℕ,
    bs.foldl (fun n b => 256 * n + b.toNat) n = 0 ↔ n = 0 ∧ ∀ b ∈ bs, b.toNat = 0 := by
  induction bs with
  | nil => simp
  | cons a bs ih =>
    intro n
    rw [foldl_cons, ih, forall_mem_cons, ← and_assoc]
    exact and_congr_left' (by omega)

theorem ofBytes_eq_zero : ofBytes e bs = 0 ↔ ∀ b ∈ bs, b.toNat = 0 := by
  cases e with
  | big => simp [ofBytes, foldl_big_eq_zero]
  | little =>
    induction bs with
    | nil => simp [ofBytes]
    | cons a bs ih =>
      rw [forall_mem_cons, ← ih]
      simp only [ofBytes, foldr_cons]
      omega

theorem foldl_big_lt : ∀ n : ℕ,
    bs.foldl (fun n b => 256 * n + b.toNat) n < (n + 1) * 256 ^ bs.length := by
  induction bs with
  | nil => simp
  | cons a bs ih =>
    intro n
    refine (ih _).trans_le ?_
    rw [length_cons, pow_succ, ← mul_assoc, mul_right_comm]
    refine mul_le_mul_right _ ?_
    have := a.isLt
    dsimp only
    omega

theorem ofBytes_lt : ofBytes e bs < 256 ^ bs.length := by
  cases e with
  | big => simpa [ofBytes] using foldl_big_lt bs 0
  | little =>
    induction bs with
    | nil => simp [ofBytes]
    | cons a bs ih =>
      have := a.isLt
      rw [length_cons, pow_succ]
      simp only [ofBytes, foldr_cons] at ih ⊢
      omega

theorem ofBytes_append_singleton (b : Byte) :
    ofBytes .big (bs ++ [b]) = 256 * ofBytes .big bs + b.toNat := by
  simp [ofBytes]

@[simp] theorem toBytes_length (n : ℕ) : ∀ x, (toBytes e n x).length = n := by
  induction n with
  | zero => cases e <;> exact fun _ => rfl
  | succ n ih =>
    intro x
    cases e <;> simp [toBytes, ih]

theorem ofBytes_toBytes (n : ℕ) : ∀ x, ofBytes e (toBytes e n x) = x % 256 ^ n := by
  induction n with
  | zero => cases e <;> simp [toBytes, ofBytes, mod_one]
  | succ n ih =>
    intro x
    have hx : x % 256 ^ (n + 1) = x % 256 + 256 * (x / 256 % 256 ^ n) := by
      rw [pow_succ, mul_comm, mod_mul]
    cases e with
    | little =>
      have := ih (x / 256)
      simp only [toBytes, ofBytes, foldr_cons] at this ⊢
      rw [this, hx, BitVec.toNat_ofNat]
    | big =>
      rw [toBytes, ofBytes_append_singleton, ih, hx, BitVec.toNat_ofNat]
      omega

theorem toBytes_ofBytes : toBytes .big bs.length (ofBytes .big bs) = bs := by
  induction bs using reverseRecOn with
  | nil => rfl
  | append_singleton bs b ih =>
    have hlt := b.isLt
    have hdiv : (256 * ofBytes .big bs + b.toNat) / 256 = ofBytes .big bs := by omega
    have hmod : BitVec.ofNat 8 (256 * ofBytes .big bs + b.toNat) = b := by
      apply BitVec.eq_of_toNat_eq
      rw [BitVec.toNat_ofNat]
      omega
    rw [length_append, length_singleton, ofBytes_append_singleton, toBytes, hdiv, hmod, ih]

/-- Byte `i` of a buffer, zero past its end. -/
def get (i : ℕ) : Byte := data.getD i 0

def writeAt (offset : ℕ) (bs : List Byte) : List Byte :=
  data.take offset ++ bs ++ data.drop (offset + bs.length)

section
variable {data bs : List Byte} {offset i : ℕ}

section
variable (h : offset + bs.length ≤ data.length)
include h

theorem length_writeAt : (writeAt data offset bs).length = data.length := by
  simp only [writeAt, length_append, length_take, length_drop]
  omega

theorem get_writeAt (i : ℕ) : get (writeAt data offset bs) i =
      if offset ≤ i ∧ i < offset + bs.length then get bs (i - offset) else get data i := by
  have htake : (data.take offset).length = offset := by rw [length_take]; omega
  simp only [get, writeAt, getD_eq_getElem?_getD, append_assoc, getElem?_append,
    htake, getElem?_drop, getElem?_take]
  split_ifs <;> first | rfl | omega | (congr 2; omega)

theorem get_writeAt_of_ne
    (hi : i < offset ∨ offset + bs.length ≤ i) : get (writeAt data offset bs) i = get data i := by
  rw [get_writeAt h, if_neg (by omega)]

end

theorem ext_get {a b : List Byte} (hlen : a.length = b.length)
    (h : ∀ i < a.length, get a i = get b i) : a = b := by
  refine ext_getElem hlen fun i ha hb => ?_
  have hi := h i ha
  simpa [get, getD_eq_getElem?_getD, getElem?_eq_getElem ha, getElem?_eq_getElem hb] using hi

theorem drop_writeAt {n : ℕ} (h : offset + bs.length ≤ data.length) (hn : offset + bs.length ≤ n) :
    (writeAt data offset bs).drop n = data.drop n := by
  have hlen : (data.take offset ++ bs).length = offset + bs.length := by
    rw [length_append, length_take]
    omega
  rw [writeAt, drop_append, hlen, drop_eq_nil_of_le (by omega), drop_drop,
    Nat.add_sub_cancel' hn, nil_append]

theorem writeAt_writeAt {cs : List Byte} (h : offset + bs.length ≤ data.length)
    (hlen : cs.length = bs.length) :
    writeAt (writeAt data offset bs) offset cs = writeAt data offset cs := by
  have htake : (data.take offset).length = offset := by rw [length_take]; omega
  have hfirst : (writeAt data offset bs).take offset = data.take offset := by
    rw [writeAt, append_assoc, take_append_of_le_length htake.ge, take_take, min_self]
  have hrest := drop_writeAt h (le_of_eq (congrArg (offset + ·) hlen.symm))
  rw [writeAt, hfirst, hrest, writeAt]

theorem writeAt_append_left {rest : List Byte} (h : offset + bs.length ≤ data.length) :
    writeAt (data ++ rest) offset bs = writeAt data offset bs ++ rest := by
  rw [writeAt, take_append_of_le_length (by omega), drop_append_of_le_length h, writeAt,
    append_assoc, append_assoc, append_assoc]

theorem writeAt_append_right {front : List Byte} (h : front.length ≤ offset) :
    writeAt (front ++ data) offset bs = front ++ writeAt data (offset - front.length) bs := by
  rw [writeAt, take_append, take_of_length_le h, drop_append,
    drop_eq_nil_of_le (by omega), writeAt, nil_append, append_assoc,
    append_assoc, append_assoc, Nat.sub_add_comm h]

theorem drop_writeAt_add {n : ℕ} (h : n ≤ data.length) :
    (writeAt data (n + offset) bs).drop n = writeAt (data.drop n) offset bs := by
  have hlen : (data.take n).length = n := length_take_of_le h
  conv_lhs => rw [← take_append_drop n data, writeAt_append_right (by omega), hlen,
    Nat.add_sub_cancel_left, drop_left' hlen]

end

theorem get_append (a b : List Byte) (i : ℕ) :
    get (a ++ b) i = if i < a.length then get a i else get b (i - a.length) := by
  simp only [get, getD_eq_getElem?_getD, getElem?_append]
  split_ifs <;> rfl

theorem get_take {data : List Byte} {n i : ℕ} (hi : i < n) : get (data.take n) i = get data i := by
  simp [get, hi]

def slice (offset n : ℕ) : List Byte := (data.drop offset).take n

section
variable {data data' bs : List Byte} {offset n : ℕ}

theorem length_slice (h : offset + n ≤ data.length) : (slice data offset n).length = n := by
  rw [slice, length_take, length_drop]
  omega

theorem get_slice (data : List Byte) (offset n i : ℕ) :
    get (slice data offset n) i = if i < n then get data (offset + i) else 0 := by
  simp only [get, slice, getD_eq_getElem?_getD, getElem?_take, getElem?_drop]
  split_ifs <;> rfl

theorem slice_congr (h : offset + n ≤ data.length) (h' : offset + n ≤ data'.length)
    (hget : ∀ i, offset ≤ i → i < offset + n → get data i = get data' i) :
    slice data offset n = slice data' offset n := by
  refine ext_get (by rw [length_slice h, length_slice h']) fun i hi => ?_
  rw [length_slice h] at hi
  rw [get_slice, get_slice, if_pos hi, if_pos hi]
  exact hget _ (Nat.le_add_right _ _) (Nat.add_lt_add_left hi _)

theorem slice_writeAt (h : offset + bs.length ≤ data.length) :
    slice (writeAt data offset bs) offset bs.length = bs := by
  have htake : (data.take offset).length = offset := by rw [length_take]; omega
  rw [slice, writeAt, append_assoc, drop_append_of_le_length htake.ge,
    drop_eq_nil_of_le htake.le, nil_append, take_append_of_le_length le_rfl,
    take_length]

theorem slice_writeAt_of_disjoint {o : ℕ} (h : o + bs.length ≤ data.length)
    (hn : offset + n ≤ data.length) (hd : offset + n ≤ o ∨ o + bs.length ≤ offset) :
    slice (writeAt data o bs) offset n = slice data offset n := by
  refine slice_congr (by rwa [length_writeAt h]) hn fun i hi hi' => get_writeAt_of_ne h ?_
  omega

theorem slice_append_left {a b : List Byte} (h : offset + n ≤ a.length) :
    slice (a ++ b) offset n = slice a offset n := by
  rw [slice, drop_append_of_le_length (by omega),
    take_append_of_le_length (by rw [length_drop]; omega), slice]

theorem slice_append_right {a b : List Byte} (h : a.length ≤ offset) :
    slice (a ++ b) offset n = slice b (offset - a.length) n := by
  rw [slice, drop_append, drop_eq_nil_of_le h, nil_append, slice]

def num (n : ℕ) (data : List Byte) (offset : ℕ) : ℕ := ofBytes .big (slice data offset n)

theorem num_lt (n : ℕ) (data : List Byte) (offset : ℕ) : num n data offset < 256 ^ n := by
  refine (ofBytes_lt .big _).trans_le (Nat.pow_le_pow_right (by decide) ?_)
  rw [slice, length_take]
  exact Nat.min_le_left _ _

theorem num_writeAt {v : ℕ} (h : offset + n ≤ data.length) :
    num n (writeAt data offset (toBytes .big n v)) offset = v % 256 ^ n := by
  have hs := slice_writeAt (show offset + (toBytes .big n v).length ≤ data.length by rwa [toBytes_length])
  rw [toBytes_length] at hs
  rw [num, hs, ofBytes_toBytes]

theorem num_congr (h : offset + n ≤ data.length) (h' : offset + n ≤ data'.length)
    (hget : ∀ i, offset ≤ i → i < offset + n → get data i = get data' i) :
    num n data offset = num n data' offset :=
  congrArg (ofBytes .big) (slice_congr h h' hget)

theorem num_append_left {a b : List Byte} (h : offset + n ≤ a.length) :
    num n (a ++ b) offset = num n a offset := congrArg (ofBytes .big) (slice_append_left h)

theorem num_append_right {a b : List Byte} (h : a.length ≤ offset) :
    num n (a ++ b) offset = num n b (offset - a.length) :=
  congrArg (ofBytes .big) (slice_append_right h)

theorem num_toBytes (rest : List Byte) {x : ℕ} (hx : x < 256 ^ n) :
    num n (toBytes .big n x ++ rest) 0 = x := by
  have hlen : (toBytes .big n x).length = n := toBytes_length _ _ _
  rw [num_append_left (by omega), num, slice, drop_zero, take_of_length_le hlen.le,
    ofBytes_toBytes, mod_eq_of_lt hx]

theorem get_of_slice_eq (h : slice data offset n = slice data' offset n) {i : ℕ}
    (hi : offset ≤ i) (hi' : i < offset + n) : get data i = get data' i := by
  have hget := congrArg (get · (i - offset)) h
  simp only [get_slice, show i - offset < n by omega, if_true, Nat.add_sub_cancel' hi] at hget
  exact hget

theorem slice_eq_of_num_eq (h : offset + n ≤ data.length) (h' : offset + n ≤ data'.length)
    (hnum : num n data offset = num n data' offset) :
    slice data offset n = slice data' offset n := by
  rw [← toBytes_ofBytes (slice data offset n), ← toBytes_ofBytes (slice data' offset n),
    length_slice h, length_slice h']
  exact congrArg (toBytes .big n) hnum

end

end Bytes
