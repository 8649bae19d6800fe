import Rustscale.Disco.Message

/-! Which messages of the discovery protocol are read back as they were written. -/
namespace Rustscale.Disco
open Octets Bytes Checks List AddrPort UdpRelayEndpoint Ping Message Except Nat

variable {front rest body : List Byte}

/-- An address is not an IPv4 address in the guise of an IPv6 one. -/
def Unmapped : IpAddr → Prop
  | .v4 _ => True
  | .v6 ip => ip.toNat / 2 ^ 32 ≠ 0xFFFF

theorem unmapped_mapFrom16 (a : BitVec 128) : Unmapped (mapFrom16 a) := by
  unfold mapFrom16
  split
  · trivial
  · next h => exact h

theorem mapFrom16_as16 {ip : IpAddr} (h : Unmapped ip) : mapFrom16 (as16 ip) = ip := by
  cases ip with
  | v4 ip =>
    have hlt := ip.isLt
    have hnat : (BitVec.ofNat 128 (0xFFFF * 2 ^ 32 + ip.toNat)).toNat =
        0xFFFF * 2 ^ 32 + ip.toNat := by
      rw [BitVec.toNat_ofNat]
      omega
    have hip : BitVec.ofNat 32 (0xFFFF * 2 ^ 32 + ip.toNat) = ip := by
      apply BitVec.eq_of_toNat_eq
      rw [BitVec.toNat_ofNat]
      omega
    simp only [as16, mapFrom16, hnat]
    rw [if_pos (by omega), hip]
  | v6 ip => exact if_neg h

@[simp] theorem AddrPort.length_encode (a : AddrPort) : a.encode.length = epLength := by
  simp [encode, epLength]

theorem AddrPort.decodeFrom_encode {a : AddrPort} (h : Unmapped a.ip) :
    decodeFrom a.encode = a := by
  rw [decodeFrom, encode, wordAt_word _ _ rfl, wordAt_skip (by simp), mapFrom16_as16 h]
  simp [wordAt_last]

theorem AddrPort.unmapped_decodeFrom (buf : List Byte) : Unmapped (decodeFrom buf).ip :=
  unmapped_mapFrom16 _

theorem addrPorts_append (h : front.length = epLength) :
    addrPorts (front ++ rest) = .decodeFrom front :: addrPorts rest := by
  have hcount : (front ++ rest).length / epLength = rest.length / epLength + 1 := by
    rw [length_append, h, add_div_left _ (by decide)]
  rw [addrPorts, hcount, range_succ_eq_map, map_cons, map_map, addrPorts]
  congr 1
  · rw [zero_mul, slice_append_left (by omega), slice, drop_zero, take_of_length_le h.le]
  · refine map_congr_left fun i _ => ?_
    simp only [Function.comp_apply]
    rw [slice_append_right (by rw [h]; exact Nat.le_mul_of_pos_left _ i.succ_pos), h,
      Nat.succ_mul, Nat.add_sub_cancel]

theorem addrPorts_flatMap {l : List AddrPort} (h : ∀ a ∈ l, Unmapped a.ip) :
    addrPorts (l.flatMap AddrPort.encode) = l := by
  induction l with
  | nil => rfl
  | cons a l ih =>
    rw [flatMap_cons, addrPorts_append a.length_encode, decodeFrom_encode (h a mem_cons_self),
      ih fun b hb => h b (mem_cons_of_mem _ hb)]

theorem length_flatMap_encode (l : List AddrPort) :
    (l.flatMap AddrPort.encode).length = l.length * epLength := by
  induction l with
  | nil => rfl
  | cons a l ih => rw [flatMap_cons, length_append, ih, a.length_encode, length_cons,
      succ_mul, add_comm]

theorem unmapped_addrPorts {a : AddrPort} (h : a ∈ addrPorts body) : Unmapped a.ip := by
  obtain ⟨i, -, rfl⟩ := mem_map.mp h
  exact unmapped_decodeFrom _

theorem length_addrPorts (body : List Byte) : (addrPorts body).length = body.length / epLength := by
  simp [addrPorts]

/-- Endpoints that are read back as they are: unmapped addresses, at least one, small lifetimes. -/
structure UdpRelayEndpoint.Canonical (e : UdpRelayEndpoint) : Prop where
  addrs : ∀ a ∈ e.addrPorts, Unmapped a.ip
  nonempty : e.addrPorts ≠ []
  bindLifetime : e.bindLifetime < 2 ^ 64
  steadyStateLifetime : e.steadyStateLifetime < 2 ^ 64

theorem UdpRelayEndpoint.length_encode (e : UdpRelayEndpoint) :
    e.encode.length = 124 + e.addrPorts.length * epLength := by
  simp only [encode, length_append, length_word, toBytes_length, length_flatMap_encode]

/-- A canonical endpoint survives the wire. -/
theorem UdpRelayEndpoint.decodeFrom_encode {e : UdpRelayEndpoint} (h : e.Canonical) :
    decodeFrom e.encode = .ok e := by
  have hpos := length_pos_iff.mpr h.nonempty
  have hcheck : 124 + epLength ≤ e.encode.length ∧ (e.encode.length - 124) % epLength = 0 := by
    rw [e.length_encode, Nat.add_sub_cancel_left, Nat.mul_mod_left]
    exact ⟨Nat.add_le_add_left (Nat.le_mul_of_pos_left _ hpos) _, rfl⟩
  have hrest : e.encode.drop 124 = e.addrPorts.flatMap AddrPort.encode := by
    rw [encode]
    exact drop_left' (by simp)
  have hbind := num_toBytes (n := 8)
    (toBytes .big 8 e.steadyStateLifetime ++ e.addrPorts.flatMap AddrPort.encode) h.bindLifetime
  have hsteady := num_toBytes (n := 8) (e.addrPorts.flatMap AddrPort.encode) h.steadyStateLifetime
  have hfields : wordAt 256 e.encode 0 = e.serverDisco ∧ wordAt 256 e.encode 32 = e.clientDisco.1 ∧
      wordAt 256 e.encode 64 = e.clientDisco.2 ∧ wordAt 64 e.encode 96 = e.lamportId ∧
      wordAt 32 e.encode 104 = e.vni ∧ num 8 e.encode 108 = e.bindLifetime ∧
      num 8 e.encode 116 = e.steadyStateLifetime := by
    simp [encode, append_assoc, wordAt_skip, wordAt_word, num_append_right, hbind, hsteady]
  obtain ⟨h1, h2, h3, h4, h5, h6, h7⟩ := hfields
  rw [decodeFrom, hrest, addrPorts_flatMap h.addrs, h1, h2, h3, h4, h5, h6, h7, decide_eq_true hcheck,
    ensure_true, ok_bind]
  rfl

theorem UdpRelayEndpoint.canonical_of_decodeFrom {e : UdpRelayEndpoint}
    (h : decodeFrom body = .ok e) : e.Canonical := by
  obtain ⟨_, hcheck, h⟩ := bind_eq_ok.mp h
  rw [ensure_eq_ok, decide_eq_true_eq] at hcheck
  obtain rfl := ok.inj h
  refine ⟨fun a ha => unmapped_addrPorts ha, fun hnil => ?_, ?_, ?_⟩
  · have hlen := length_addrPorts (body.drop 124)
    rw [show Disco.addrPorts (body.drop 124) = [] from hnil, length_drop, length_nil, eq_comm,
      Nat.div_eq_zero_iff] at hlen
    simp only [epLength] at hlen hcheck
    omega
  · exact num_lt 8 body 108
  · exact num_lt 8 body 116

/-- Addresses are not mapped, lifetimes fit 64 bits and relay endpoints have an address. -/
def Message.Canonical : Message → Prop
  | .pong m => Unmapped m.src.ip
  | .callMeMaybe l => ∀ a ∈ l, Unmapped a.ip
  | .callMeMaybeVia e => e.Canonical
  | .allocateUdpRelayEndpointResponse m => m.endpoint.Canonical
  | _ => True

/-- The padding of a ping cannot be taken for its key. -/
def Message.Unambiguous : Message → Prop
  | .ping m => m.nodeKey ≠ 0 ∨ m.padding < 32
  | _ => True

/-- What is parsed is canonical. -/
theorem Message.canonical_of_parse {type : Byte} {m : Message}
    (h : parse (type :: 0 :: body) = .ok m) : m.Canonical := by
  simp only [parse] at h
  split at h
  · obtain ⟨_, -, h⟩ := bind_eq_ok.mp h
    split at h <;>
    · obtain rfl := ok.inj h
      trivial
  split at h
  · obtain ⟨_, -, h⟩ := bind_eq_ok.mp h
    obtain rfl := ok.inj h
    exact unmapped_decodeFrom _
  split at h
  · unfold parseCallMeMaybe at h
    split at h
    · obtain rfl := ok.inj h
      rintro a ⟨⟩
    · obtain rfl := ok.inj h
      exact fun a ha => unmapped_addrPorts ha
  iterate 3
    split at h
    · obtain ⟨c, -, h⟩ := bind_eq_ok.mp h
      obtain rfl := ok.inj h
      trivial
  split at h
  · rw [parseCallMeMaybeVia, if_neg (by simp)] at h
    obtain ⟨e, he, h⟩ := bind_eq_ok.mp h
    obtain rfl := ok.inj h
    exact canonical_of_decodeFrom he
  split at h
  · rw [parseAllocateUdpRelayEndpointRequest, if_neg (by simp)] at h
    obtain ⟨_, -, h⟩ := bind_eq_ok.mp h
    obtain rfl := ok.inj h
    trivial
  split at h
  · rw [parseAllocateUdpRelayEndpointResponse, if_neg (by simp)] at h
    obtain ⟨_, -, h⟩ := bind_eq_ok.mp h
    obtain ⟨e, he, h⟩ := bind_eq_ok.mp h
    obtain rfl := ok.inj h
    exact canonical_of_decodeFrom he
  · cases h

/-- A ping survives the wire unless it has no key and padding long enough to read as one. -/
theorem parsePing_encode (m : Ping) :
    parsePing m.encode = .ok (.ping m) ↔ (Message.ping m).Unambiguous := by
  obtain ⟨txId, nodeKey, padding⟩ := m
  have htx : wordAt 96 (encode ⟨txId, nodeKey, padding⟩) 0 = txId := by
    rw [Ping.encode, append_assoc, wordAt_word _ _ rfl]
  by_cases hkey : nodeKey = 0
  · subst hkey
    have hlen : (Ping.encode ⟨txId, 0, padding⟩).length = 12 + padding := by simp [Ping.encode]
    rw [parsePing, htx, hlen, decide_eq_true (Nat.le_add_right _ _), ensure_true, ok_bind]
    simp only [Message.Unambiguous, ne_eq, not_true_eq_false, false_or]
    by_cases hpadding : padding < 32
    · rw [if_neg (by omega), Nat.add_sub_cancel_left]
      exact iff_of_true rfl hpadding
    · refine iff_of_false (fun h => ?_) hpadding
      rw [if_pos (by omega)] at h
      have heq := Except.ok.inj h
      simp only [Message.ping.injEq, Ping.mk.injEq] at heq
      omega
  · have hlen : (Ping.encode ⟨txId, nodeKey, padding⟩).length = 44 + padding := by
      simp only [Ping.encode, if_neg hkey, length_append, length_word, length_replicate]
    have hword : wordAt 256 (Ping.encode ⟨txId, nodeKey, padding⟩) 12 = nodeKey := by
      rw [Ping.encode, if_neg hkey, append_assoc, wordAt_skip (by simp)]
      exact wordAt_word _ nodeKey rfl
    rw [parsePing, htx, hlen, hword, decide_eq_true (by omega), ensure_true, ok_bind,
      if_pos (Nat.le_add_right _ _)]
    refine iff_of_true ?_ (.inl hkey)
    rw [show 44 + padding - 12 - 32 = padding by omega]
    rfl

theorem parseCallMeMaybe_encode {l : List AddrPort} (h : ∀ a ∈ l, Unmapped a.ip) :
    parseCallMeMaybe 0 (l.flatMap AddrPort.encode) = .ok (.callMeMaybe l) := by
  unfold parseCallMeMaybe
  rw [length_flatMap_encode, mul_mod_left, addrPorts_flatMap h]
  cases l with
  | nil => rfl
  | cons a l =>
    rw [if_neg]
    · rfl
    · have hlen : ((a :: l).flatMap AddrPort.encode).length ≠ 0 := by
        rw [length_flatMap_encode]
        simp [epLength]
      simp only [ne_eq, not_true_eq_false, false_or]
      rintro hnil
      rw [hnil] at hlen
      exact hlen rfl

/-- A canonical message survives the wire exactly when it is unambiguous. -/
theorem Message.parse_marshal {m : Message} (h : m.Canonical) :
    parse m.marshal = .ok m ↔ m.Unambiguous := by
  cases m with
  | ping m => exact parsePing_encode m
  | pong m =>
    refine iff_of_true ?_ trivial
    have hsrc : slice (word m.txId ++ m.src.encode) 12 epLength = m.src.encode := by
      rw [slice_append_right (by simp), slice]
      simp [take_of_length_le]
    have hlen : (word m.txId ++ m.src.encode).length = 30 := by simp [epLength]
    change parsePong (word m.txId ++ m.src.encode) = _
    rw [parsePong, hlen, hsrc, decodeFrom_encode h, wordAt_word _ _ rfl]
    rfl
  | callMeMaybe l => exact iff_of_true (parseCallMeMaybe_encode h) trivial
  | bindUdpRelayEndpointChallenge c => exact iff_of_true (parse_marshal_challenge c) trivial
  | bindUdpRelayEndpoint c | bindUdpRelayEndpointAnswer c =>
    refine iff_of_true ?_ trivial
    simp [parse, marshal, BindUdpRelayEndpointCommon.decodeFrom_encode, pure, Except.pure]
  | callMeMaybeVia e =>
    refine iff_of_true ?_ trivial
    simp [parse, marshal, parseCallMeMaybeVia, decodeFrom_encode h, pure, Except.pure]
  | allocateUdpRelayEndpointRequest m =>
    refine iff_of_true ?_ trivial
    simp [parse, marshal, parseAllocateUdpRelayEndpointRequest, append_assoc, wordAt_skip, wordAt_word,
      wordAt_last, pure, Except.pure]
  | allocateUdpRelayEndpointResponse m =>
    refine iff_of_true ?_ trivial
    simp [parse, marshal, parseAllocateUdpRelayEndpointResponse, wordAt_word,
      decodeFrom_encode h, pure, Except.pure]

/-- Of the canonical messages, and of those read from version 0, all are read back but the pings
without a key whose padding is long enough for one. -/
theorem parse_marshal_iff (m : Message) :
    (m.Canonical → (Message.parse m.marshal = .ok m ↔ m.Unambiguous)) ∧
      ∀ type body, Message.parse (type :: 0 :: body) = .ok m →
        (Message.parse m.marshal = Message.parse (type :: 0 :: body) ↔ m.Unambiguous) := by
  refine ⟨parse_marshal, fun type body h => ?_⟩
  rw [h]
  exact parse_marshal (canonical_of_parse h)

/-- A ping with padding is canonical and is read back. -/
theorem parse_marshal_iff_ping : (ping ⟨7, 5, 40⟩).Canonical ∧
    parse (ping ⟨7, 5, 40⟩).marshal = .ok (.ping ⟨7, 5, 40⟩) ∧
    (parse (ping ⟨7, 5, 40⟩).marshal = parse ((1 : Byte) :: 0 :: encode ⟨7, 5, 40⟩) ↔
        (ping ⟨7, 5, 40⟩).Unambiguous) := by
  have hkey : (ping ⟨7, 5, 40⟩).Unambiguous := .inl (by decide)
  have h := parse_marshal_iff (.ping ⟨7, 5, 40⟩)
  have hread := (h.1 trivial).mpr hkey
  exact ⟨trivial, hread, h.2 1 _ hread⟩

/-- A ping with 32 bytes of padding loses it; 64 zero bytes are read as a key and padding, which are
not read back. -/
theorem ping_padding_lost :
    parse (ping ⟨7, 0, 32⟩).marshal = .ok (.ping ⟨7, 0, 0⟩) ∧
      parse ([1, 0] ++ word (7 : BitVec 96) ++ replicate 64 0) = .ok (.ping ⟨7, 0, 32⟩) := by
  decide +kernel

end Rustscale.Disco
