import Rustscale.Filter.Prefix
import Rustscale.Packet

/-! Compiled filter rules, what they match, and their split by address family. -/
namespace Rustscale.PacketFilter
open IpAddr Packet Bool List

structure PortRange where
  first : ℕ
  last : ℕ
  deriving DecidableEq

def PortRange.all : PortRange := ⟨0, 65535⟩

def PortRange.contains (r : PortRange) (port : ℕ) : Bool :=
  decide (r.first ≤ port) && decide (port ≤ r.last)

structure NetPortRange where
  net : IpPrefix
  ports : PortRange
  deriving DecidableEq

structure CapMatch where
  dst : IpPrefix
  cap : String
  values : List String

/-- A compiled rule: protocols, sources, source capabilities, destinations, grants. -/
structure Match where
  ipProto : List ℕ := []
  srcs : List IpPrefix := []
  srcCaps : List String := []
  dsts : List NetPortRange := []
  caps : List CapMatch := []

def Match.srcsContains (m : Match) (src : IpAddr) : Bool := m.srcs.any fun p => p.contains src

abbrev Matches := List Match

namespace Matches
variable (ms : Matches) (q : PacketInfo) (hasCap : IpAddr → String → Bool)

/-- Protocol, source, and a destination entry with the address and the port. -/
def matchesFull : Bool := ms.any fun m =>
  m.ipProto.contains q.proto && (m.srcsContains q.src || m.srcCaps.any (hasCap q.src)) &&
    m.dsts.any fun d => d.net.contains q.dst && d.ports.contains q.dstPort

/-- Addresses only, for ICMP: a scan by source prefix, then one by source capability. -/
def matchesIpsOnly : Bool :=
  (ms.any fun m => m.srcsContains q.src && m.dsts.any fun d => d.net.contains q.dst) ||
    ms.any fun m => m.srcCaps.any (hasCap q.src)

def matchesProtoAndIpsOnlyIfAllPorts : Bool := ms.any fun m =>
  m.ipProto.contains q.proto && m.srcsContains q.src &&
    m.dsts.any fun d => d.ports == PortRange.all && d.net.contains q.dst

end Matches

/-- The part of a rule about one address family. Source capabilities are of both. -/
def Match.family (v4 : Bool) (m : Match) : Match :=
  { ipProto := m.ipProto
    srcCaps := m.srcCaps
    srcs := m.srcs.filter fun s => s.isV4 == v4
    dsts := m.dsts.filter fun d => d.net.isV4 == v4 }

def Match.nonempty (m : Match) : Bool :=
  (!m.srcs.isEmpty || !m.srcCaps.isEmpty) && !m.dsts.isEmpty

def Matches.family (v4 : Bool) (ms : Matches) : Matches :=
  (ms.map (Match.family v4)).filter Match.nonempty

def Matches.partitionByFamily (ms : Matches) : Matches × Matches :=
  (ms.family true, ms.family false)

/-- The capability grants of a rule by the family of its sources. -/
def Match.capFamily (v4 : Bool) (m : Match) : Match :=
  { caps := m.caps, srcs := m.srcs.filter fun s => s.isV4 == v4 }

def Matches.partitionCapsByFamily (ms : Matches) : Matches × Matches :=
  let granting := ms.filter fun m => !m.caps.isEmpty
  ((granting.map (Match.capFamily true)).filter fun m => !m.srcs.isEmpty,
    (granting.map (Match.capFamily false)).filter fun m => !m.srcs.isEmpty)

section Family
variable {v4 : Bool} {ip : IpAddr}

theorem IpPrefix.isV4_of_contains {p : IpPrefix} (h : p.contains ip = true) :
    p.isV4 = ip.isIpv4 := by
  rw [isV4, isIpv4, isIpv4, ((contains_iff p ip).mp h).1]

theorem any_contains_filter {α : Type} (l : List α) (net : α → IpPrefix) (p : α → Bool)
    (hip : ip.isIpv4 = v4) :
    ((l.filter fun a => (net a).isV4 == v4).any fun a => (net a).contains ip && p a) =
      l.any fun a => (net a).contains ip && p a := by
  rw [any_filter]
  congr 1
  funext a
  by_cases h : (net a).contains ip = true
  · simp [h, IpPrefix.isV4_of_contains h, hip]
  · simp [h]

theorem Match.family_srcsContains (m : Match) (hip : ip.isIpv4 = v4) :
    (m.family v4).srcsContains ip = m.srcsContains ip := by
  simpa [srcsContains, family] using any_contains_filter m.srcs id (fun _ => true) hip

theorem Match.family_dsts (m : Match) (p : NetPortRange → Bool) (hip : ip.isIpv4 = v4) :
    ((m.family v4).dsts.any fun d => d.net.contains ip && p d) =
      m.dsts.any fun d => d.net.contains ip && p d :=
  any_contains_filter m.dsts NetPortRange.net p hip

theorem Matches.any_family (ms : Matches) {P : Match → Bool}
    (hP : ∀ m, P (m.family v4) = P m) (hne : ∀ m, P m = true → m.nonempty = true) :
    (ms.family v4).any P = ms.any P := by
  rw [Matches.family, any_filter, any_map]
  congr 1
  funext m
  by_cases h : P m = true
  · simp [hP, h, hne _ ((hP m).trans h)]
  · simp [hP, h]

theorem Match.nonempty_iff {m : Match} :
    m.nonempty = true ↔ (m.srcs ≠ [] ∨ m.srcCaps ≠ []) ∧ m.dsts ≠ [] := by
  simp [nonempty]

theorem Match.srcs_ne_nil {m : Match} (h : m.srcsContains ip = true) : m.srcs ≠ [] := by
  rintro hnil
  simp [srcsContains, hnil] at h

end Family

section Packets
variable {v4 : Bool} (ms : Matches) {q : PacketInfo} (hasCap : IpAddr → String → Bool)

section
variable (hs : q.src.isIpv4 = v4) (hd : q.dst.isIpv4 = v4)
include hs hd

theorem Matches.matchesFull_family :
    (ms.family v4).matchesFull q hasCap = ms.matchesFull q hasCap := by
  apply ms.any_family
  · intro m
    rw [m.family_srcsContains hs, m.family_dsts (fun d => d.ports.contains q.dstPort) hd]
    rfl
  · intro m h
    simp only [and_eq_true, or_eq_true] at h
    obtain ⟨⟨-, hsrc⟩, hdst⟩ := h
    refine Match.nonempty_iff.mpr ⟨hsrc.imp Match.srcs_ne_nil ?_, ?_⟩
    · rintro hcap hnil
      simp [hnil] at hcap
    · rintro hnil
      simp [hnil] at hdst

theorem Matches.matchesProtoAndIpsOnlyIfAllPorts_family :
    (ms.family v4).matchesProtoAndIpsOnlyIfAllPorts q = ms.matchesProtoAndIpsOnlyIfAllPorts q := by
  apply ms.any_family
  · intro m
    have hdsts := m.family_dsts (fun d => d.ports == PortRange.all) hd
    simp only [Bool.and_comm] at hdsts ⊢
    rw [m.family_srcsContains hs, hdsts]
    rfl
  · intro m h
    simp only [and_eq_true] at h
    refine Match.nonempty_iff.mpr ⟨Or.inl (Match.srcs_ne_nil h.1.2), ?_⟩
    rintro hnil
    simp [hnil] at h

/-- Matching by address, on the rules of one family. -/
theorem Matches.matchesIpsOnly_family : (ms.family v4).matchesIpsOnly q hasCap =
      ((ms.any fun m => m.srcsContains q.src && m.dsts.any fun d => d.net.contains q.dst) ||
        ms.any fun m => m.srcCaps.any (hasCap q.src) && m.dsts.any fun d => d.net.isV4 == v4) := by
  unfold matchesIpsOnly
  congr 1
  · apply ms.any_family
    · intro m
      have hdsts := m.family_dsts (fun _ => true) hd
      simp only [Bool.and_true] at hdsts
      rw [m.family_srcsContains hs, hdsts]
    · intro m h
      simp only [and_eq_true] at h
      refine Match.nonempty_iff.mpr ⟨Or.inl (Match.srcs_ne_nil h.1), ?_⟩
      rintro hnil
      simp [hnil] at h
  · rw [Matches.family, any_filter, any_map]
    congr 1
    funext m
    by_cases hcap : m.srcCaps.any (hasCap q.src) = true
    · have hne : m.srcCaps ≠ [] := by
        rintro hnil
        simp [hnil] at hcap
      have hdsts : (!(m.dsts.filter fun d => d.net.isV4 == v4).isEmpty) =
          m.dsts.any fun d => d.net.isV4 == v4 := by
        rw [Bool.eq_iff_iff]
        simp [any_eq_true]
      simp [Match.family, Match.nonempty, hcap, hne, hdsts]
    · simp [Match.family, hcap]

end

end Packets

end Rustscale.PacketFilter
