import Rustscale.Filter.Prefix

/-! The address ranges of a tailnet, and the order of prefixes. -/
namespace Rustscale.Tsaddr
open IpAddr

abbrev IpPrefix := PacketFilter.IpPrefix

def chromeOsVmRange : IpPrefix := ⟨.v4 0x64735C00, 23⟩

def cgnatRange : IpPrefix := ⟨.v4 0x64400000, 10⟩

def tailscaleUlaRange : IpPrefix := ⟨.v6 0xFD7A115CA1E000000000000000000000, 48⟩

def allIpv4 : IpPrefix := ⟨.v4 0, 0⟩

def allIpv6 : IpPrefix := ⟨.v6 0, 0⟩

def isTailscaleIpv4 (ip : IpAddr) : Bool :=
  ip.isIpv4 && cgnatRange.contains ip && !chromeOsVmRange.contains ip

def isTailscaleIp (ip : IpAddr) : Bool :=
  match ip with
  | .v4 _ => isTailscaleIpv4 ip
  | .v6 _ => tailscaleUlaRange.contains ip

/-- An IPv4 address that is mapped into IPv6 is taken as itself. -/
def normalizeIp (ip : IpAddr) : IpAddr :=
  match ip with
  | .v4 a => .v4 a
  | .v6 a => if a.toNat / 2 ^ 32 = 0xFFFF then .v4 (BitVec.ofNat 32 a.toNat) else .v6 a

/-- IPv4 comes before IPv6. -/
def ipLe (a b : IpAddr) : Bool :=
  match a, b with
  | .v4 a, .v4 b => a.toNat ≤ b.toNat
  | .v6 a, .v6 b => a.toNat ≤ b.toNat
  | .v4 _, .v6 _ => true
  | .v6 _, .v4 _ => false

def prefixLe (a b : IpPrefix) : Bool := if a.addr = b.addr then a.bits ≤ b.bits else ipLe a.addr b.addr

def sortPrefixes (p : List IpPrefix) : List IpPrefix := p.mergeSort prefixLe

/-- `Vec::dedup`: equal neighbours are taken once. -/
def dedup {α : Type} [DecidableEq α] : List α → List α
  | [] => []
  | [a] => [a]
  | a :: b :: l => if a = b then dedup (b :: l) else a :: dedup (b :: l)

@[simp] theorem mem_dedup {α : Type} [DecidableEq α] {x : α} {l : List α} : x ∈ dedup l ↔ x ∈ l := by
  fun_induction dedup l with
  | case1 => rfl
  | case2 a => rfl
  | case3 b l ih =>
    rw [ih]
    simp
  | case4 a b l hne ih => rw [List.mem_cons, ih, List.mem_cons (b := a)]

@[simp] theorem mem_sortPrefixes {x : IpPrefix} {l : List IpPrefix} : x ∈ sortPrefixes l ↔ x ∈ l :=
  List.mem_mergeSort

end Rustscale.Tsaddr
