import Rustscale.Tun.GroAccount
import Rustscale.Tun.SplitVirtio

/-! The frame of a merged output: how it is written, and that the splitter accepts it. -/
namespace Rustscale.Tun
open Octets Bytes Checks List GroOutput Nat

section
variable {e : Endian} {item : TcpItem} {p : List Byte}

def accountFlags (item : TcpItem) (p : List Byte) : List Byte :=
  if item.psh then writeAt p (item.ipLen + 13) [get p (item.ipLen + 13) ||| tcpPsh] else p

def accountLength (e : Endian) (item : TcpItem) (p : List Byte) : List Byte :=
  let total := (item.ipLen + item.tcpLen + item.payloadLen) % 2 ^ 16
  if item.key.v6 then writeAt p 4 (toBytes .big 2 (total - item.ipLen))
  else fillChecksum 10 (fun d => checksum e (d.take item.ipLen) 0)
    (writeAt p 2 (toBytes .big 2 total))

theorem length_accountFlags (h : item.ipLen + 20 ≤ p.length) :
    (accountFlags item p).length = p.length := by
  unfold accountFlags
  split_ifs
  · exact length_writeAt (by rw [length_singleton]; omega)
  · rfl

theorem length_writeTotal (h : 20 ≤ p.length) (v : ℕ) :
    (writeAt p 2 (toBytes .big 2 v)).length = p.length :=
  length_writeAt (by rw [toBytes_length]; omega)

theorem length_accountLength (e : Endian) (item : TcpItem) {p : List Byte} (h : 20 ≤ p.length) :
    (accountLength e item p).length = p.length := by
  have hw := length_writeTotal h
  unfold accountLength
  dsimp only
  split_ifs
  · exact length_writeAt (by rw [toBytes_length]; omega)
  · rw [length_fillChecksum (by rw [hw]; omega), hw]

theorem account_eq (e : Endian) (h : item.ipLen + 20 ≤ p.length) :
    (accountFlags item p).length = p.length ∧
      (accountLength e item (accountFlags item p)).length = p.length ∧
      ∃ seed, account e item p = writeAt (accountLength e item (accountFlags item p))
        (item.ipLen + 16) (toBytes .big 2 seed) := by
  have hf := length_accountFlags h
  exact ⟨hf, (length_accountLength e item (by omega)).trans hf, _, rfl⟩

theorem length_account (h : item.ipLen + 20 ≤ p.length) : (account e item p).length = p.length := by
  obtain ⟨hf, hl, seed, heq⟩ := account_eq e h
  rw [heq, length_writeAt (by rw [toBytes_length]; omega), hl]

def accountBytes (item : TcpItem) : List ℕ :=
  (if item.key.v6 then [4, 5] else [2, 3, 10, 11]) ++
    [item.ipLen + 13, item.ipLen + 16, item.ipLen + 17]

theorem mem_accountBytes {k : ℕ} : k ∈ accountBytes item ↔
    (item.key.v6 = true ∧ (k = 4 ∨ k = 5)) ∨
    (item.key.v6 = false ∧ (k = 2 ∨ k = 3 ∨ k = 10 ∨ k = 11)) ∨
    k = item.ipLen + 13 ∨ k = item.ipLen + 16 ∨ k = item.ipLen + 17 := by
  cases hv : item.key.v6 <;> simp [accountBytes, hv, or_assoc]

theorem get_accountLength (h : 20 ≤ p.length) {k : ℕ}
    (hk : k ∉ if item.key.v6 then [4, 5] else [2, 3, 10, 11]) :
    get (accountLength e item p) k = get p k := by
  unfold accountLength
  dsimp only
  split_ifs with hv
  · rw [if_pos hv] at hk
    simp only [mem_cons, not_mem_nil, or_false, not_or] at hk
    exact get_writeAt_of_ne (by rw [toBytes_length]; omega) (by rw [toBytes_length]; omega)
  · rw [if_neg hv] at hk
    simp only [mem_cons, not_mem_nil, or_false, not_or] at hk
    have hw := length_writeTotal h
    rw [get_fillChecksum (by rw [hw]; omega) (by omega),
      get_writeAt_of_ne (by rw [toBytes_length]; omega) (by rw [toBytes_length]; omega)]

theorem get_account (h : item.ipLen + 20 ≤ p.length) {k : ℕ} (hk : k ∉ accountBytes item) :
    get (account e item p) k = get p k := by
  simp only [accountBytes, mem_append, mem_cons, not_mem_nil, or_false, not_or] at hk
  obtain ⟨hf, hl, seed, heq⟩ := account_eq e h
  rw [heq, get_writeAt_of_ne (by rw [toBytes_length]; omega) (by rw [toBytes_length]; omega),
    get_accountLength (by omega) hk.1]
  unfold accountFlags
  split_ifs
  · exact get_writeAt_of_ne (by rw [length_singleton]; omega) (by rw [length_singleton]; omega)
  · rfl

theorem flags_account (h : item.ipLen + 20 ≤ p.length) (hip : 20 ≤ item.ipLen) :
    get (account e item p) (item.ipLen + 13) =
      if item.psh then get p (item.ipLen + 13) ||| tcpPsh else get p (item.ipLen + 13) := by
  obtain ⟨hf, hl, seed, heq⟩ := account_eq e h
  rw [heq, get_writeAt_of_ne (by rw [toBytes_length]; omega) (by omega),
    get_accountLength (by omega) (by
      split_ifs <;> simp only [mem_cons, not_mem_nil, or_false, not_or] <;> omega)]
  unfold accountFlags
  split_ifs
  · rw [get_writeAt (by rw [length_singleton]; omega), if_pos (by simp)]
    simp [Bytes.get]
  · rfl

/-- The length field of a finished head is that of the merged packet. -/
theorem num_accountLength (h : 20 ≤ p.length)
    (hlt : item.ipLen + item.tcpLen + item.payloadLen ≤ 65535) :
    num 2 (accountLength e item p) (if item.key.v6 then 4 else 2) =
      item.ipLen + item.tcpLen + item.payloadLen - if item.key.v6 then item.ipLen else 0 := by
  have hmod : (item.ipLen + item.tcpLen + item.payloadLen) % 2 ^ 16 =
      item.ipLen + item.tcpLen + item.payloadLen := mod_eq_of_lt (by omega)
  unfold accountLength
  dsimp only
  rw [hmod]
  split_ifs with hv
  · rw [num_writeAt (by omega)]
    exact mod_eq_of_lt (by omega)
  · have hw := length_writeTotal h
    have hsame : num 2 (fillChecksum 10 (fun d => checksum e (d.take item.ipLen) 0)
        (writeAt p 2 (toBytes .big 2 (item.ipLen + item.tcpLen + item.payloadLen)))) 2 =
        num 2 (writeAt p 2 (toBytes .big 2 (item.ipLen + item.tcpLen + item.payloadLen))) 2 :=
      num_congr (by rw [length_fillChecksum (by rw [hw]; omega), hw]; omega) (by rw [hw]; omega)
        fun k _ hk => get_fillChecksum (by rw [hw]; omega) (by omega)
    rw [hsame, num_writeAt (by omega)]
    exact mod_eq_of_lt (by omega)

theorem num_account (h : item.ipLen + 20 ≤ p.length) (hip : 20 ≤ item.ipLen)
    (hlt : item.ipLen + item.tcpLen + item.payloadLen ≤ 65535) :
    num 2 (account e item p) (if item.key.v6 then 4 else 2) =
      item.ipLen + item.tcpLen + item.payloadLen - if item.key.v6 then item.ipLen else 0 := by
  obtain ⟨hf, hl, seed, heq⟩ := account_eq e h
  rw [← num_accountLength (p := accountFlags item p) (by omega) hlt, heq]
  have hw : item.ipLen + 16 + (toBytes .big 2 seed).length ≤
      (accountLength e item (accountFlags item p)).length := by
    rw [toBytes_length]
    omega
  have ho : (if item.key.v6 then 4 else 2) + 2 ≤ 6 := by split_ifs <;> decide
  exact num_congr (by rw [length_writeAt hw]; omega) (by omega)
    fun k _ hk => get_writeAt_of_ne hw (.inl (by omega))

end

section
variable {g : ℕ}

/-- All segments but the last have the same length, and the last is not longer. -/
def Chunked (g : ℕ) : List (List Byte) → Prop
  | [] => True
  | [c] => c.length ≤ g
  | c :: rest => c.length = g ∧ Chunked g rest

theorem chunked_of_getElem? : ∀ {chunks : List (List Byte)},
    (∀ j c, chunks[j]? = some c → (j + 1 < chunks.length → c.length = g) ∧
      (j + 1 = chunks.length → c.length ≤ g)) → Chunked g chunks
  | [], _ => trivial
  | [c], h => (h 0 c rfl).2 rfl
  | c :: d :: rest, h => by
    refine ⟨(h 0 c rfl).1 (by simp), chunked_of_getElem? fun j x hj => ?_⟩
    have hx := h (j + 1) x (by simpa using hj)
    exact ⟨fun hlt => hx.1 (by simpa using hlt), fun heq => hx.2 (by simpa using heq)⟩

theorem slice_flatten : ∀ {chunks : List (List Byte)}, Chunked g chunks → ∀ {i : ℕ} {c : List Byte},
    chunks[i]? = some c → slice chunks.flatten (i * g) g = c
  | [], _, i, c, hi => by simp at hi
  | [d], h, i, c, hi => by
    obtain ⟨rfl, rfl⟩ : i = 0 ∧ d = c := by
      rcases i with - | i <;> simp at hi ⊢
      exact hi
    have hle : d.length ≤ g := h
    simp [slice, take_of_length_le hle]
  | d :: x :: rest, h, i, c, hi => by
    obtain ⟨hlen, hrest⟩ : d.length = g ∧ Chunked g (x :: rest) := h
    rw [flatten_cons]
    rcases i with - | i
    · obtain rfl : d = c := by simpa using hi
      rw [zero_mul, slice_append_left (by omega), slice, drop_zero, take_of_length_le hlen.le]
    · rw [slice_append_right (by rw [hlen, add_mul]; omega), hlen, add_mul, one_mul,
        Nat.add_sub_cancel]
      exact slice_flatten hrest (by simpa using hi)

theorem length_flatten_chunked : ∀ {chunks : List (List Byte)}, Chunked g chunks →
    ∀ {n : ℕ} {c : List Byte}, chunks.length = n + 1 → chunks[n]? = some c →
      chunks.flatten.length = n * g + c.length
  | [], _, n, c, hn, _ => by simp at hn
  | [d], _, n, c, hn, hc => by
    obtain rfl : n = 0 := by simpa using hn.symm
    obtain rfl : d = c := by simpa using hc
    simp
  | d :: x :: rest, h, n, c, hn, hc => by
    obtain ⟨hlen, hrest⟩ : d.length = g ∧ Chunked g (x :: rest) := h
    obtain ⟨n, rfl⟩ : ∃ k, n = k + 1 := ⟨rest.length, by simpa using hn.symm⟩
    have ih := length_flatten_chunked hrest (by simpa using hn) (by simpa using hc)
    rw [flatten_cons, length_append, ih, hlen, add_mul]
    omega

end

def tailOf (item : TcpItem) (p : List Byte) : List Byte := p.drop (item.ipLen + item.tcpLen)

def mergedInput (e : Endian) (packets : List (List Byte)) (item : TcpItem) (o : GroOutput) :
    List Byte :=
  account e item (packetAt packets o.head) ++
    (o.fragments.map fun f => tailOf item (packetAt packets f.packet)).flatten

def mergedFrame (e : Endian) (packets : List (List Byte)) (item : TcpItem) (o : GroOutput) :
    List Byte := vnetTcpHeader e item ++ mergedInput e packets item o

/-- Gathering the fragments concatenates the payloads they name. -/
theorem foldlM_addFragment (packets : List (List Byte)) (g : PayloadFragment → List Byte)
    (fs : List PayloadFragment) (total : ℕ) (parts : List (List Byte))
    (h : ∀ f ∈ fs, ∃ p, packets[f.packet]? = some p ∧ getRange p f.start f.stop = some (g f))
    (hle : total + (fs.map g).flatten.length ≤ 2 ^ 63 - 1) :
    fs.foldlM (addFragment packets) (total, parts) =
      .ok (total + (fs.map g).flatten.length, parts ++ fs.map g) := by
  induction fs generalizing total parts with
  | nil => simp [pure, Except.pure]
  | cons f fs ih =>
    obtain ⟨⟨p, hp, hrange⟩, h⟩ := forall_mem_cons.mp h
    rw [map_cons, flatten_cons, length_append] at hle ⊢
    have hstep : addFragment packets (total, parts) f =
        .ok (total + (g f).length, parts ++ [g f]) := by
      have h1 : total + (g f).length < 2 ^ 64 := by omega
      have h2 : total + (g f).length ≤ 2 ^ 63 - 1 := by omega
      simp only [addFragment, hp, okOr_some, ok_bind, hrange, h1, h2, decide_true, ensure_true]
      rfl
    rw [foldlM_cons, hstep, ok_bind, ih _ _ h (by omega), append_assoc, add_assoc]
    rfl

section
variable {e : Endian} {packets : List (List Byte)} {item : TcpItem} {o : GroOutput}

theorem Merged.isMeta (h : Merged e packets item o) {j i : ℕ} (hj : o.members[j]? = some i) :
    ∃ m, IsMeta (packetAt packets i) m ∧ Place item j o.members.length m ∧
      m.ipLen = item.ipLen ∧ (packetAt packets i).length = item.ipLen + item.tcpLen + m.payload := by
  obtain ⟨m, hm, hp⟩ := h.place j i hj
  have hmeta := isMeta_of_tcpMeta hm
  have hip : m.ipLen = item.ipLen := by rw [hmeta.ipLen, h.ipLen, hp.key]
  exact ⟨m, hmeta, hp, hip, by rw [hmeta.length, hip, hp.tcpLen]⟩

theorem Merged.le_ipLen (h : Merged e packets item o) : 20 ≤ item.ipLen := by
  rw [h.ipLen, ipLenOf]
  split_ifs <;> decide

def chunks (packets : List (List Byte)) (item : TcpItem) (o : GroOutput) : List (List Byte) :=
  o.members.map fun i => tailOf item (packetAt packets i)

theorem length_chunks : (chunks packets item o).length = o.members.length := length_map _

section
variable (h : Merged e packets item o)
include h

theorem Merged.chunk {j : ℕ} {c : List Byte} (hc : (chunks packets item o)[j]? = some c) :
    ∃ i m, o.members[j]? = some i ∧
      c = tailOf item (packetAt packets i) ∧ c.length = m.payload ∧
      Place item j o.members.length m ∧ 0 < m.payload := by
  rw [chunks, getElem?_map, Option.map_eq_some_iff] at hc
  obtain ⟨i, hi, rfl⟩ := hc
  obtain ⟨m, hm, hp, -, hlen⟩ := h.isMeta hi
  refine ⟨i, m, hi, rfl, ?_, hp, hm.payload⟩
  rw [tailOf, length_drop, hlen]
  omega

theorem Merged.chunked : Chunked item.gsoSize (chunks packets item o) := by
  refine chunked_of_getElem? fun j c hc => ?_
  obtain ⟨i, m, -, -, hlen, hp, -⟩ := h.chunk hc
  rw [length_chunks, hlen]
  exact ⟨fun hlt => (hp.inner hlt).1, fun heq => (hp.last heq).1⟩

/-- The payloads add up to the length that the item records: it never wrapped. -/
theorem Merged.length_flatten : (chunks packets item o).flatten.length = item.payloadLen := by
  have hn : (chunks packets item o).length = o.fragments.length + 1 := by
    rw [length_chunks, length_members]
  obtain ⟨c, hc⟩ : ∃ c, (chunks packets item o)[o.fragments.length]? = some c :=
    ⟨_, getElem?_eq_getElem (by omega)⟩
  obtain ⟨i, m, -, -, hlen, hp, -⟩ := h.chunk hc
  rw [length_flatten_chunked h.chunked hn hc, hlen]
  exact ((hp.last (length_members o).symm).2.2).symm

theorem Merged.head_meta :
    ∃ m, IsMeta (packetAt packets o.head) m ∧ Place item 0 o.members.length m ∧
      m.ipLen = item.ipLen ∧
      (packetAt packets o.head).length = item.ipLen + item.tcpLen + m.payload :=
  h.isMeta rfl

theorem Merged.head_long : item.ipLen + 20 ≤ (packetAt packets o.head).length := by
  obtain ⟨m, -, -, -, hlen⟩ := h.head_meta
  have := h.tcpLen_bounds
  omega

end

theorem drop_account {p : List Byte} {n : ℕ} (h : item.ipLen + 20 ≤ p.length)
    (hip : 20 ≤ item.ipLen) (hn : item.ipLen + 20 ≤ n) : (account e item p).drop n = p.drop n := by
  refine Bytes.ext_get (by rw [length_drop, length_drop, length_account h]) fun k _ => ?_
  have hdrop : ∀ d : List Byte, get (d.drop n) k = get d (n + k) := fun d => by simp [Bytes.get]
  rw [hdrop, hdrop, get_account h (by rw [mem_accountBytes]; omega)]

section
variable (h : Merged e packets item o)
include h

theorem Merged.drop_mergedInput : (mergedInput e packets item o).drop (item.ipLen + item.tcpLen) =
      (chunks packets item o).flatten := by
  obtain ⟨m, -, -, -, hlen⟩ := h.head_meta
  have hlong := h.head_long
  have h20 := h.tcpLen_bounds
  rw [mergedInput, drop_append_of_le_length (by rw [length_account hlong]; omega),
    drop_account hlong h.le_ipLen (by omega), chunks, members, map_cons,
    flatten_cons, map_map]
  rfl

theorem Merged.length_mergedInput :
    (mergedInput e packets item o).length = item.ipLen + item.tcpLen + item.payloadLen := by
  have hdrop := congrArg length h.drop_mergedInput
  rw [length_drop, h.length_flatten] at hdrop
  obtain ⟨m, hm, -, -, hlen⟩ := h.head_meta
  have hle : (packetAt packets o.head).length ≤ (mergedInput e packets item o).length := by
    rw [mergedInput, length_append, length_account h.head_long]
    omega
  have := hm.payload
  omega

theorem Merged.get_mergedInput {k : ℕ} (hk : k < item.ipLen + item.tcpLen) :
    get (mergedInput e packets item o) k = get (account e item (packetAt packets o.head)) k := by
  obtain ⟨m, -, -, -, hlen⟩ := h.head_meta
  rw [mergedInput, get_append, length_account h.head_long, if_pos (by omega)]

/-- The vectors written for a merged output are its header and its payloads in order. -/
theorem Merged.groWriteIovecs_eq {packets' : List (List Byte)}
    (hhead : packets'[o.head]? = some (account e item (packetAt packets o.head)))
    (hrest : ∀ f ∈ o.fragments, packets'[f.packet]? = some (packetAt packets f.packet)) :
    ∃ bufs, groWriteIovecs maxGroIovecs { o with header := vnetTcpHeader e item } packets' =
        .ok (bufs, virtioNetHdrLen + (mergedInput e packets item o).length) ∧
      bufs.flatten = mergedFrame e packets item o ∧ bufs.length = o.iovecCount := by
  have hlen := h.length_mergedInput
  have hbound := h.bound
  have hio : (iovecCount { o with header := vnetTcpHeader e item }) ≤ maxGroIovecs :=
    h.iovecs
  have hio' : (iovecCount { o with header := vnetTcpHeader e item }) ≤ 2 ^ 31 - 1 :=
    hio.trans (by decide)
  rw [mergedInput, length_append] at hlen
  have h10 : virtioNetHdrLen = 10 := rfl
  have hfold := foldlM_addFragment packets' (fun f => tailOf item (packetAt packets f.packet))
    o.fragments (virtioNetHdrLen + (account e item (packetAt packets o.head)).length) []
    (fun f hf => ⟨_, hrest f hf, ?_⟩) (by omega)
  · refine ⟨vnetTcpHeader e item :: account e item (packetAt packets o.head) ::
      o.fragments.map fun f => tailOf item (packetAt packets f.packet), ?_, rfl, by
        simp only [length_cons, length_map, iovecCount]
        omega⟩
    have h1 : virtioNetHdrLen + (account e item (packetAt packets o.head)).length < 2 ^ 64 := by
      omega
    have h2 : virtioNetHdrLen + (account e item (packetAt packets o.head)).length ≤ 2 ^ 63 - 1 := by
      omega
    simp only [groWriteIovecs, hio, hio', and_self, decide_true, ensure_true, ok_bind, hhead,
      okOr_some, h1, h2, hfold, mergedInput, length_append]
    simp only [nil_append, add_assoc]
    rfl
  · obtain ⟨hstart, hstop⟩ := h.fragments f hf
    obtain ⟨j, hj⟩ := getElem?_of_mem (mem_cons_of_mem o.head (mem_map_of_mem hf))
    obtain ⟨m, -, -, -, hplen⟩ := h.isMeta hj
    rw [hstart, hstop, getRange_eq (by omega) le_rfl, slice, tailOf, take_of_length_le
      (by rw [length_drop])]

end

end

end Rustscale.Tun
