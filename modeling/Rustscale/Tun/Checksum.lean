import Rustscale.Lib.Bytes
import Rustscale.Lib.OnesComplement

/-! The Internet checksum, accumulated in words of the native byte order. -/
namespace Rustscale.Tun
open Octets Bytes OnesComplement List Nat

variable (e : Endian) (protocol : Byte) (data : List Byte) (sum : ℕ)

def addWord (word : ℕ) : ℕ := addCarry 64 sum word

def addStripes (e : Endian) : ℕ → List Byte → ℕ × ℕ × ℕ × ℕ → ℕ × ℕ × ℕ × ℕ
  | 0, _, lanes => lanes
  | k + 1, data, (a, b, c, d) =>
    addStripes e k (data.drop 32)
      (addWord a (ofBytes e (data.take 8)), addWord b (ofBytes e ((data.drop 8).take 8)),
        addWord c (ofBytes e ((data.drop 16).take 8)), addWord d (ofBytes e ((data.drop 24).take 8)))

def addWords (e : Endian) : ℕ → List Byte → ℕ → ℕ
  | 0, _, sum => sum
  | k + 1, data, sum => addWords e k (data.drop 8) (addWord sum (ofBytes e (data.take 8)))

def addChunk (n : ℕ) (data : List Byte) (sum : ℕ) : List Byte × ℕ :=
  if n ≤ data.length then (data.drop n, addWord sum (ofBytes e (data.take n))) else (data, sum)

/-- The last bytes: four, two and one. -/
def addTail : ℕ :=
  let (data, sum) := addChunk e 4 data sum
  let (data, sum) := addChunk e 2 data sum
  match data with
  | [byte] => addWord sum (ofBytes e [byte, 0])
  | _ => sum

/-- The loops run as often as their strides fit. -/
def checksumAccumulate : ℕ :=
  let (a, b, c, d) := addStripes e (data.length / 32) data (0, 0, 0, 0)
  let sum := addWord (addWord (addWord (addWord sum a) b) c) d
  let data := data.drop (32 * (data.length / 32))
  let sum := addWords e (data.length / 8) data sum
  addTail e (data.drop (8 * (data.length / 8))) sum

def checksumInitial (initial : ℕ) : ℕ := ofBytes .big (toBytes e 8 initial)

def checksumFold : ℕ :=
  let sum := ofBytes e (toBytes .big 8 sum)
  foldTo 16 sum sum

def checksum (initial : ℕ) : ℕ :=
  checksumFold e (checksumAccumulate e data (checksumInitial e initial))

def pseudo (src dst : List Byte) (len : ℕ) : ℕ :=
  let sum := checksumAccumulate e src (checksumInitial e 0)
  let sum := checksumAccumulate e dst sum
  let sum := checksumAccumulate e [0, protocol] sum
  checksumFold e (checksumAccumulate e (toBytes .big 2 len) sum)

/-- The sum of the big-endian 16-bit words; an odd byte is padded with zero. -/
def wordSum : List Byte → ℕ
  | [] => 0
  | [a] => a.toNat * 256
  | a :: b :: rest => a.toNat * 256 + b.toNat + wordSum rest

/-- The Internet checksum of a sum of words. -/
def onesSum (s : ℕ) : ℕ := canon 65535 s

theorem wordSum_append : ∀ (l r : List Byte), 2 ∣ l.length →
    wordSum (l ++ r) = wordSum l + wordSum r
  | [], r, _ => by simp [wordSum]
  | [a], r, h => by simp at h
  | a :: b :: l, r, h => by
    have h' : 2 ∣ l.length := by simpa using h
    rw [cons_append, cons_append, wordSum, wordSum, wordSum_append l r h']
    omega

/-- Two bytes are one digit of `2 ^ 16`, and that is one. -/
theorem modEq_sq (n : ℕ) : 256 * (256 * n) ≡ n [MOD 65535] := by
  have h : 65536 ≡ 1 [MOD 65535] := rfl
  simpa [← mul_assoc] using h.mul_right n

theorem ofBytes_little_modEq : ∀ bs : List Byte,
    256 * ofBytes .little bs ≡ wordSum bs [MOD 65535]
  | [] => rfl
  | [a] => by simp [ofBytes, wordSum, Nat.ModEq, mul_comm]
  | a :: b :: rest => by
    have ih := ofBytes_little_modEq rest
    have hexp : 256 * ofBytes .little (a :: b :: rest) =
        256 * a.toNat + 256 * (256 * b.toNat) + 256 * (256 * (256 * ofBytes .little rest)) := by
      simp only [ofBytes, foldr_cons]
      ring
    rw [hexp, wordSum, mul_comm _ 256]
    exact ((Nat.ModEq.refl _).add (modEq_sq _)).add ((modEq_sq _).trans ih)

theorem foldl_big_modEq : ∀ (bs : List Byte) (n : ℕ), 2 ∣ bs.length →
    bs.foldl (fun n b => 256 * n + b.toNat) n ≡ n + wordSum bs [MOD 65535]
  | [], n, _ => rfl
  | [a], n, h => by simp at h
  | a :: b :: rest, n, h => by
    have h' : 2 ∣ rest.length := by simpa using h
    have ih := foldl_big_modEq rest (256 * (256 * n + a.toNat) + b.toNat) h'
    refine ih.trans ?_
    have hexp : 256 * (256 * n + a.toNat) + b.toNat + wordSum rest =
        256 * (256 * n) + wordSum (a :: b :: rest) := by
      rw [wordSum]
      ring
    rw [hexp]
    exact (modEq_sq n).add_right _

theorem wordSum_eq_zero : ∀ bs : List Byte, wordSum bs = 0 ↔ ∀ b ∈ bs, b.toNat = 0
  | [] | [a] => by simp [wordSum]
  | a :: b :: rest => by
    rw [wordSum, forall_mem_cons, forall_mem_cons, ← wordSum_eq_zero rest]
    omega

/-- How much a native word counts as a sum of big-endian ones. -/
def scale : Endian → ℕ
  | .little => 256
  | .big => 1

/-- A wide accumulator stands for a ones' complement sum. -/
structure Sums (e : Endian) (acc s : ℕ) : Prop where
  lt : acc < 2 ^ 64
  rep : Rep 65535 (scale e * acc) s

section
variable {e : Endian} {acc acc' s s' : ℕ}

theorem scale_pos (e : Endian) : 0 < scale e := by cases e <;> decide

theorem Sums.addWord (h : Sums e acc s) (h' : Sums e acc' s') :
    Sums e (addWord acc acc') (s + s') where
  lt := addCarry_lt _ _ _
  rep := by
    have hadd : Rep 65535 (addCarry 64 acc acc') (acc + acc') :=
      (rep_addCarry (by decide) h.lt h'.lt).dvd (by decide)
    have hmul := hadd.mul_left (scale_pos e)
    rw [mul_add] at hmul
    exact hmul.trans (h.rep.add h'.rep)

theorem sums_ofBytes {bs : List Byte} (hlen : bs.length ≤ 8) (heven : 2 ∣ bs.length) :
    Sums e (ofBytes e bs) (wordSum bs) where
  lt := (ofBytes_lt e bs).trans_le (by
    have := Nat.pow_le_pow_right (show 0 < 256 by decide) hlen
    exact this)
  rep := by
    refine ⟨?_, ?_⟩
    · cases e with
      | little => exact ofBytes_little_modEq bs
      | big => simpa [scale, ofBytes] using foldl_big_modEq bs 0 heven
    · rw [wordSum_eq_zero, ← ofBytes_eq_zero e]
      simp [(scale_pos e).ne']

theorem Sums.zero (e : Endian) : Sums e 0 0 := ⟨by decide, by simpa using Rep.refl 0⟩

theorem Sums.chunk {n : ℕ} (h : Sums e acc s) (data : List Byte) (hn : n ≤ 8) (heven : 2 ∣ n)
    (hlen : n ≤ data.length) :
    Sums e (Tun.addWord acc (ofBytes e (data.take n))) (s + wordSum (data.take n)) := by
  have hl : (data.take n).length = n := by simpa using hlen
  exact h.addWord (sums_ofBytes (by rwa [hl]) (by rwa [hl]))

theorem wordSum_take_add_drop {n : ℕ} (data : List Byte) (heven : 2 ∣ n) (hlen : n ≤ data.length) :
    wordSum (data.take n) + wordSum (data.drop n) = wordSum data := by
  have hl : (data.take n).length = n := by simpa using hlen
  rw [← wordSum_append _ _ (by rwa [hl]), take_append_drop]

theorem addWords_sums (k : ℕ) {data : List Byte} {acc s : ℕ} (h : Sums e acc s)
    (hlen : 8 * k ≤ data.length) :
    Sums e (addWords e k data acc) (s + wordSum (data.take (8 * k))) := by
  induction k generalizing data acc s with
  | zero => simpa [addWords, wordSum] using h
  | succ k ih =>
    have hstep := ih (h.chunk data le_rfl (by decide) (by omega))
      (show 8 * k ≤ (data.drop 8).length by rw [length_drop]; omega)
    have htake : (data.take (8 * (k + 1))).take 8 = data.take 8 := by
      rw [take_take, min_eq_left (by omega)]
    have hdrop : (data.take (8 * (k + 1))).drop 8 = (data.drop 8).take (8 * k) := by
      rw [drop_take, show 8 * (k + 1) - 8 = 8 * k by omega]
    have hsum := wordSum_take_add_drop (n := 8) (data.take (8 * (k + 1))) (by decide)
      (by rw [length_take]; omega)
    rw [htake, hdrop] at hsum
    rw [addWords, ← hsum, ← add_assoc]
    exact hstep

/-- Each of the four accumulators of the unrolled loop sums its own stripe. -/
theorem addStripes_sums (k : ℕ) {data : List Byte} {a b c d sa sb sc sd : ℕ} (ha : Sums e a sa)
    (hb : Sums e b sb) (hc : Sums e c sc) (hd : Sums e d sd) (hlen : 32 * k ≤ data.length) :
    ∃ ta tb tc td, ta + tb + tc + td = sa + sb + sc + sd + wordSum (data.take (32 * k)) ∧
      Sums e (addStripes e k data (a, b, c, d)).1 ta ∧
      Sums e (addStripes e k data (a, b, c, d)).2.1 tb ∧
      Sums e (addStripes e k data (a, b, c, d)).2.2.1 tc ∧
      Sums e (addStripes e k data (a, b, c, d)).2.2.2 td := by
  induction k generalizing data a b c d sa sb sc sd with
  | zero => exact ⟨sa, sb, sc, sd, by simp [wordSum], ha, hb, hc, hd⟩
  | succ k ih =>
    have hl : ∀ n, (data.drop n).length = data.length - n := fun n => length_drop
    obtain ⟨ta, tb, tc, td, hsum, h⟩ := ih (ha.chunk data le_rfl (by decide) (by omega))
      (hb.chunk (data.drop 8) le_rfl (by decide) (by rw [hl]; omega))
      (hc.chunk (data.drop 16) le_rfl (by decide) (by rw [hl]; omega))
      (hd.chunk (n := 8) (data.drop 24) le_rfl (by decide) (by rw [hl]; omega))
      (show 32 * k ≤ (data.drop 32).length by rw [hl]; omega)
    refine ⟨ta, tb, tc, td, ?_, h⟩
    have hsplit : ∀ n, n + 8 ≤ 32 * (k + 1) → wordSum ((data.take (32 * (k + 1))).drop n) =
        wordSum ((data.drop n).take 8) + wordSum ((data.take (32 * (k + 1))).drop (n + 8)) := by
      intro n hn
      rw [← wordSum_take_add_drop (n := 8) _ (by decide) (by simp; omega), drop_drop,
        drop_take, take_take, min_eq_left (by omega)]
    have h0 := hsplit 0 (by omega)
    have h8 := hsplit 8 (by omega)
    have h16 := hsplit 16 (by omega)
    have h24 := hsplit 24 (by omega)
    have h32 : (data.take (32 * (k + 1))).drop 32 = (data.drop 32).take (32 * k) := by
      rw [drop_take, show 32 * (k + 1) - 32 = 32 * k by omega]
    simp only [drop_zero, zero_add, reduceAdd] at h0 h8 h16 h24
    rw [h32] at h24
    omega

theorem addChunk_sums {n : ℕ} (data : List Byte) (h : Sums e acc s) (hn : n ≤ 8) (heven : 2 ∣ n) :
    Sums e (addChunk e n data acc).2 (s + (wordSum data - wordSum (addChunk e n data acc).1)) ∧
    wordSum (addChunk e n data acc).1 ≤ wordSum data := by
  unfold addChunk
  split_ifs with hlen
  · have hsum := wordSum_take_add_drop data heven hlen
    refine ⟨?_, by dsimp only; omega⟩
    rw [← hsum, Nat.add_sub_cancel]
    exact h.chunk data hn heven hlen
  · simpa using h

/-- The last bytes, fewer than a word, are added as if padded with zeros. -/
theorem addTail_sums {data : List Byte} (h : Sums e acc s) (hlen : data.length < 8) :
    Sums e (addTail e data acc) (s + wordSum data) := by
  have h4 := addChunk_sums (n := 4) data h (by decide) (by decide)
  have l4 : (addChunk e 4 data acc).1.length < 4 := by
    unfold addChunk
    split_ifs <;> simp <;> omega
  unfold addTail
  generalize addChunk e 4 data acc = c4 at h4 l4
  obtain ⟨data4, acc4⟩ := c4
  dsimp only at h4 l4 ⊢
  have h2 := addChunk_sums (n := 2) data4 h4.1 (by decide) (by decide)
  have l2 : (addChunk e 2 data4 acc4).1.length < 2 := by
    unfold addChunk
    split_ifs <;> simp <;> omega
  generalize addChunk e 2 data4 acc4 = c2 at h2 l2
  obtain ⟨data2, acc2⟩ := c2
  dsimp only at h2 l2 ⊢
  match data2, l2, h2 with
  | [], _, h2 =>
    have heq : s + (wordSum data - wordSum data4) + (wordSum data4 - wordSum []) =
        s + wordSum data := by
      simp only [wordSum] at *
      omega
    exact heq ▸ h2.1
  | [b], _, h2 =>
    have hb := h2.1.addWord (sums_ofBytes (show [b, 0].length ≤ 8 by simp) (by simp))
    have heq : s + (wordSum data - wordSum data4) + (wordSum data4 - wordSum [b]) +
        wordSum [b, 0] = s + wordSum data := by
      simp [wordSum] at *
      omega
    exact heq ▸ hb

/-- The accumulator is congruent to the sum of the 16-bit words. -/
theorem checksumAccumulate_sums (h : Sums e acc s) (data : List Byte) :
    Sums e (checksumAccumulate e data acc) (s + wordSum data) := by
  have hk : 32 * (data.length / 32) ≤ data.length := mul_div_le _ _
  obtain ⟨ta, tb, tc, td, hsum, ha, hb, hc, hd⟩ := addStripes_sums (data.length / 32)
    (Sums.zero e) (Sums.zero e) (Sums.zero e) (Sums.zero e) hk
  have hlanes := (((h.addWord ha).addWord hb).addWord hc).addWord hd
  have hrest := wordSum_take_add_drop data (Dvd.dvd.mul_right (by decide) _) hk
  unfold checksumAccumulate
  generalize hr : data.drop (32 * (data.length / 32)) = rest at hrest
  have hk' : 8 * (rest.length / 8) ≤ rest.length := mul_div_le _ _
  have hwords := addWords_sums (rest.length / 8) hlanes hk'
  have hrest' := wordSum_take_add_drop rest (Dvd.dvd.mul_right (by decide) _) hk'
  have htail := addTail_sums hwords
    (show (rest.drop (8 * (rest.length / 8))).length < 8 by rw [length_drop]; omega)
  have heq : s + ta + tb + tc + td + wordSum (rest.take (8 * (rest.length / 8))) +
      wordSum (rest.drop (8 * (rest.length / 8))) = s + wordSum data := by
    omega
  exact heq ▸ htail

theorem rep_sq (n : ℕ) : Rep 65535 (256 * (256 * n)) n := ⟨modEq_sq n, by simp⟩

/-- Bytes read the other way round count 256 times. -/
theorem rep_swap {bs : List Byte} (heven : 2 ∣ bs.length) :
    Rep 65535 (256 * ofBytes .little bs) (ofBytes .big bs) := by
  refine ⟨(ofBytes_little_modEq bs).trans ?_, ?_⟩
  · simpa [ofBytes] using (foldl_big_modEq bs 0 heven).symm
  · rw [ofBytes_eq_zero .big, ← ofBytes_eq_zero .little]
    simp

theorem sums_checksumInitial (e : Endian) {initial : ℕ} (h : initial < 2 ^ 16) :
    Sums e (checksumInitial e initial) initial := by
  have hlt : checksumInitial e initial < 2 ^ 64 := by
    have := ofBytes_lt .big (toBytes e 8 initial)
    rwa [toBytes_length] at this
  have hmod : initial % 256 ^ 8 = initial := mod_eq_of_lt (by omega)
  refine ⟨hlt, ?_⟩
  cases e with
  | big =>
    rw [checksumInitial, ofBytes_toBytes, hmod]
    simpa [scale] using Rep.refl initial
  | little =>
    have hswap := rep_swap (show 2 ∣ (toBytes .little 8 initial).length by rw [toBytes_length]; decide)
    rw [ofBytes_toBytes, hmod] at hswap
    exact (hswap.symm.mul_left (by decide)).trans (rep_sq initial)

theorem Sums.checksumFold (h : Sums e acc s) : checksumFold e acc = onesSum s := by
  have hmod : acc % 256 ^ 8 = acc := mod_eq_of_lt h.lt
  have hrep : Rep 65535 (ofBytes e (toBytes .big 8 acc)) s := by
    cases e with
    | big =>
      rw [ofBytes_toBytes, hmod]
      simpa [scale] using h.rep
    | little =>
      have hswap := rep_swap (show 2 ∣ (toBytes .big 8 acc).length by rw [toBytes_length]; decide)
      rw [ofBytes_toBytes, hmod] at hswap
      exact (rep_sq _).symm.trans ((hswap.mul_left (by decide)).trans h.rep)
  have hlt := foldTo_lt (w := 16) (by decide) _ _ (le_refl (ofBytes e (toBytes .big 8 acc)))
  refine Rep.eq_canon (by decide) ((rep_foldTo (w := 16) (by decide) _ _).trans hrep) ?_
  exact le_of_lt_succ hlt

end

theorem checksum_eq {initial : ℕ} (h : initial < 2 ^ 16) :
    checksum e data initial = onesSum (initial + wordSum data) :=
  (checksumAccumulate_sums (sums_checksumInitial e h) data).checksumFold

/-- The sum of the big-endian words, folded while it has more than 16 bits. -/
def scalarChecksum (data : List Byte) (initial : ℕ) : ℕ :=
  let sum := initial + wordSum data
  foldTo 16 sum sum

/-- The unrolled checksum is the plain one, for all data and initial values. -/
theorem checksum_eq_scalarChecksum (initial : BitVec 16) :
    checksum e data initial.toNat = scalarChecksum data initial.toNat := by
  rw [checksum_eq e data initial.isLt]
  dsimp only [scalarChecksum]
  generalize initial.toNat + wordSum data = s
  have hrep := rep_foldTo (by decide : 0 < 16) s s
  have hlt := foldTo_lt (by decide : 0 < 16) s s (le_refl s)
  exact (hrep.eq_canon (by decide) (le_pred_of_lt hlt)).symm

def pseudoSum (src dst : List Byte) (len : ℕ) : ℕ :=
  wordSum src + wordSum dst + protocol.toNat + len

theorem wordSum_toBytes {len : ℕ} (h : len < 2 ^ 16) : wordSum (toBytes .big 2 len) = len := by
  have hlen := ofBytes_toBytes .big 2 len
  rw [mod_eq_of_lt (show len < 256 ^ 2 from h)] at hlen
  simp only [toBytes, nil_append, cons_append, wordSum, ofBytes, foldl_cons, foldl_nil] at hlen ⊢
  omega

theorem pseudo_eq (src dst : List Byte) {len : ℕ} (h : len < 2 ^ 16) :
    pseudo e protocol src dst len = onesSum (pseudoSum protocol src dst len) := by
  have hinit := sums_checksumInitial e (show 0 < 2 ^ 16 by decide)
  have hsum := checksumAccumulate_sums (checksumAccumulate_sums (checksumAccumulate_sums
    (checksumAccumulate_sums hinit src) dst) [0, protocol]) (toBytes .big 2 len)
  rw [pseudo, hsum.checksumFold, wordSum_toBytes h]
  simp [pseudoSum, wordSum]

theorem onesSum_le (s : ℕ) : onesSum s ≤ 65535 := canon_le (by decide) s

theorem checksum_pseudo_eq (src dst data : List Byte) {len : ℕ} (h : len < 2 ^ 16) :
    checksum e data (pseudo e protocol src dst len) =
      onesSum (pseudoSum protocol src dst len + wordSum data) := by
  have hle := onesSum_le (pseudoSum protocol src dst len)
  rw [pseudo_eq e protocol src dst h, checksum_eq e data (by omega)]
  exact canon_canon_add (by decide) _ _

/-- Put the complement of the sum, taken over a zero, at `at'`. -/
def fillChecksum (at' : ℕ) (sum : List Byte → ℕ) (data : List Byte) : List Byte :=
  let data := writeAt data at' (toBytes .big 2 0)
  writeAt data at' (toBytes .big 2 (65535 - sum data))

section
variable {data : List Byte} {at' : ℕ} {sum : List Byte → ℕ}

section
variable (h : at' + 2 ≤ data.length)
include h

theorem fillChecksum_eq : fillChecksum at' sum data =
    writeAt data at' (toBytes .big 2 (65535 - sum (writeAt data at' (toBytes .big 2 0)))) :=
  writeAt_writeAt (by rwa [toBytes_length]) (by simp only [toBytes_length])

theorem length_fillChecksum : (fillChecksum at' sum data).length = data.length := by
  rw [fillChecksum_eq h, length_writeAt (by rwa [toBytes_length])]

theorem num_fillChecksum : num 2 (fillChecksum at' sum data) at' =
    65535 - sum (writeAt data at' (toBytes .big 2 0)) := by
  rw [fillChecksum_eq h, num_writeAt h]
  exact mod_eq_of_lt (by omega)

theorem get_fillChecksum {i : ℕ} (hi : i < at' ∨ at' + 2 ≤ i) :
    get (fillChecksum at' sum data) i = get data i := by
  rw [fillChecksum_eq h, get_writeAt_of_ne (by rwa [toBytes_length]) (by rwa [toBytes_length])]

end

theorem wordSum_writeAt (heven : 2 ∣ at') (h : at' + 2 ≤ data.length) {v : ℕ} (hv : v < 2 ^ 16) :
    wordSum (writeAt data at' (toBytes .big 2 v)) =
      wordSum (writeAt data at' (toBytes .big 2 0)) + v := by
  have htake : (data.take at').length = at' := by rw [length_take]; omega
  have hsplit : ∀ {v}, v < 2 ^ 16 → wordSum (writeAt data at' (toBytes .big 2 v)) =
      wordSum (data.take at') + v + wordSum (data.drop (at' + 2)) := by
    intro v hv
    rw [writeAt, wordSum_append _ _ (by rw [length_append, htake, toBytes_length]; omega),
      wordSum_append _ _ (by rwa [htake]), wordSum_toBytes hv, toBytes_length]
  rw [hsplit hv, hsplit (by decide)]
  omega

theorem onesSum_fillChecksum {s : ℕ} (hsum : ∀ d, sum d = onesSum (s + wordSum d))
    (heven : 2 ∣ at') (h : at' + 2 ≤ data.length) :
    onesSum (s + wordSum (fillChecksum at' sum data)) = 65535 := by
  rw [fillChecksum_eq h, hsum, wordSum_writeAt heven h (by omega), ← add_assoc]
  exact canon_add_compl (by decide) _

end

end Rustscale.Tun
