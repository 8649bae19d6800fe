import Rustscale.Portmapper.Gateway
import Mathlib.Data.List.Destutter
import Mathlib.Data.String.Basic

/-! How the responses to a UPnP discovery are told from other datagrams, sorted and compacted. -/
namespace List
variable {α β : Type} [DecidableEq α] {a : α} {l : List α}

theorem mem_destutter'_ne {x : α} : x ∈ l.destutter' (· ≠ ·) a ↔ x ∈ a :: l := by
  induction l generalizing a with
  | nil => simp
  | cons b l ih =>
    by_cases hab : a = b
    · subst hab
      simp [ih]
    · rw [destutter'_cons_pos _ hab, mem_cons, ih, ← mem_cons]

theorem nodup_destutter'_ne :
    (l.destutter' (· ≠ ·) a).Nodup ↔ ∀ x y, [x, y, x] <+ a :: l → x = y := by
  induction l generalizing a with
  | nil => simp
  | cons b l ih =>
    by_cases hab : a = b
    · subst hab
      rw [destutter'_cons_neg _ (by simp), ih]
      refine ⟨fun h x y hsub => ?_, fun h x y hsub => h x y (hsub.cons a)⟩
      cases hsub with
      | cons _ hsub => exact h x y hsub
      | cons_cons _ hsub =>
        cases hsub with
        | cons _ hsub => exact h a y (hsub.cons_cons a)
        | cons_cons => rfl
    · rw [destutter'_cons_pos _ hab, nodup_cons, mem_destutter'_ne, ih]
      refine ⟨fun h x y hsub => ?_, fun h => ⟨fun hmem => ?_, fun x y hsub => h x y (hsub.cons a)⟩⟩
      · cases hsub with
        | cons _ hsub => exact h.2 x y hsub
        | cons_cons _ hsub => exact absurd (hsub.subset (by simp)) h.1
      · have hl : a ∈ l := (mem_cons.mp hmem).resolve_left hab
        exact hab (h a b (((singleton_sublist.mpr hl).cons_cons b).cons_cons a))

/-- The runs of a list start with different elements exactly if nothing else lies between two that
are equal. -/
theorem nodup_destutter_ne : (l.destutter (· ≠ ·)).Nodup ↔ ∀ x y, [x, y, x] <+ l → x = y := by
  cases l with
  | nil => simp
  | cons a l => exact nodup_destutter'_ne

/-- In an ordered list, the start of its run is before every element. -/
theorem exists_mem_destutter' {r : β → β → Prop} (hr : ∀ x, r x x) {f : β → α} {l : List β} {a x : β}
    (hl : (a :: l).Pairwise r) (hx : x ∈ a :: l) :
    ∃ y ∈ l.destutter' (f · ≠ f ·) a, f y = f x ∧ r y x := by
  have hself : ∃ y ∈ l.destutter' (f · ≠ f ·) a, f y = f a ∧ r y a :=
    ⟨a, mem_destutter' _ _ a, rfl, hr a⟩
  induction l generalizing a with
  | nil => rwa [mem_singleton.mp hx]
  | cons b l ih =>
    rcases mem_cons.mp hx with rfl | hx
    · exact hself
    have htail := (pairwise_cons.mp hl).2
    by_cases hab : f a = f b
    · rw [destutter'_cons_neg _ (not_not.mpr hab)]
      rcases mem_cons.mp hx with rfl | hx
      · exact ⟨a, mem_destutter' _ _ a, hab, (pairwise_cons.mp hl).1 x mem_cons_self⟩
      · exact ih (hl.sublist (by simp)) (mem_cons_of_mem a hx) ⟨a, mem_destutter' _ _ a, rfl, hr a⟩
    · rw [destutter'_cons_pos _ hab]
      obtain ⟨y, hy, h⟩ := ih htail hx ⟨b, mem_destutter' _ _ b, rfl, hr b⟩
      exact ⟨y, mem_cons_of_mem a hy, h⟩

theorem exists_mem_destutter {r : β → β → Prop} (hr : ∀ x, r x x) {f : β → α} {l : List β} {x : β}
    (hl : l.Pairwise r) (hx : x ∈ l) : ∃ y ∈ l.destutter (f · ≠ f ·), f y = f x ∧ r y x := by
  cases l with
  | nil => cases hx
  | cons a l => exact exists_mem_destutter' hr hl hx

end List

namespace Rustscale.Portmapper
open Octets List Utf8

namespace UpnpDiscoResponse

def device (r : UpnpDiscoResponse) : String × String := (r.location, r.server)

/-- The order by descending USN. -/
def Precedes (a b : UpnpDiscoResponse) : Prop := b.usn ≤ a.usn

instance : DecidableRel Precedes := fun a b => inferInstanceAs (Decidable (b.usn ≤ a.usn))

instance : Std.Total Precedes := ⟨fun a b => le_total b.usn a.usn⟩

instance : IsTrans UpnpDiscoResponse Precedes := ⟨fun _ _ _ h h' => le_trans h' h⟩

end UpnpDiscoResponse

open UpnpDiscoResponse

variable (cfg : Config) (responses : List UpnpDiscoResponse)

def sortResponses : List UpnpDiscoResponse :=
  responses.insertionSort Precedes

def processResponses : List UpnpDiscoResponse :=
  (sortResponses responses).destutter (device · ≠ device ·)

/-- One response of each device, of greatest USN, in order. -/
structure Collected (responses out : List UpnpDiscoResponse) : Prop where
  ordered : out.Pairwise Precedes
  subset : out ⊆ responses
  once : (out.map device).Nodup
  greatest : ∀ r ∈ responses, ∃ best ∈ out, best.device = r.device ∧ best.Precedes r

/-- The text of a discovery response. -/
def igdText : List Byte := utf8 "InternetGatewayDevice"

variable (src : Source) (pkt : List Byte)

/-- A probe, whatever it has seen, takes the datagram for a discovery response. -/
def TakenForDiscovery : Prop :=
  ∀ current o responses now, Observations.probeReceive cfg current o responses src pkt now =
    (o, .probe (responses ++ (parseSsdpResponse pkt).toList.map (·, [src])))

theorem collected_iff :
    Collected responses (processResponses responses) ↔
      ∀ d e, [d, e, d] <+ (sortResponses responses).map device → d = e := by
  have hmap : (processResponses responses).map device =
      ((sortResponses responses).map device).destutter (· ≠ ·) :=
    map_destutter fun _ _ _ _ => Iff.rfl
  have hsorted : (sortResponses responses).Pairwise Precedes := pairwise_insertionSort _ _
  have hperm : (sortResponses responses).Perm responses := perm_insertionSort _ _
  have hsub : processResponses responses <+ sortResponses responses := destutter_sublist _ _
  rw [← nodup_destutter_ne, ← hmap]
  refine ⟨Collected.once, fun honce =>
    ⟨hsorted.sublist hsub, fun r hr => hperm.subset (hsub.subset hr), honce, fun r hr => ?_⟩⟩
  exact exists_mem_destutter (fun r => le_refl r.usn) hsorted (hperm.mem_iff.mpr hr)

/-- Which packets are taken for discovery traffic. -/
theorem takenForDiscovery_iff :
    TakenForDiscovery cfg src pkt ↔
      src.port = cfg.upnpPort ∨ parseSsdpResponse pkt = none ∧ ¬Heeds cfg src pkt := by
  by_cases hport : src.port = cfg.upnpPort
  · refine iff_of_true (fun current o responses now => ?_) (.inl hport)
    rw [Observations.probeReceive, if_pos (.inl hport)]
    cases parseSsdpResponse pkt <;> simp
  simp only [TakenForDiscovery, Observations.probeReceive, Heeds, looksLikeIgdResponse_eq, hport,
    Bool.false_eq_true, or_false, if_false, false_or]
  constructor
  · intro h
    -- A probe under another gateway stops at an answer that it heeds.
    have hstale := h false {} [] 0
    constructor
    · cases hparse : parseSsdpResponse pkt with
      | none => rfl
      | some r =>
        rw [hparse] at hstale
        split_ifs at hstale
        · cases hstale
        · split at hstale <;> cases hstale
        · cases hstale
    · rintro ⟨hpxp, hheeds⟩
      rw [if_pos hpxp] at hstale
      split_ifs at hstale with hpcp
      · cases hstale
      · obtain ⟨addr, haddr⟩ := Option.ne_none_iff_exists'.mp (hheeds.resolve_left hpcp)
        rw [haddr] at hstale
        cases hstale
  · rintro ⟨hparse, hheeds⟩ current o responses now
    rw [hparse]
    split_ifs with hpxp hpcp
    · exact absurd ⟨hpxp, .inl hpcp⟩ hheeds
    · cases haddr : publicAddress pkt with
      | some addr => exact absurd ⟨hpxp, .inr (by simp [haddr])⟩ hheeds
      | none => simp
    · simp

/-- The responses are collected exactly if, in the order of their USNs, nothing lies between two of
one device, and a datagram with the text is taken for one exactly if it comes from the port of SSDP
or there is nothing to read off it. -/
theorem discovery_iff :
    (Collected responses (processResponses responses) ↔
      ∀ d e, [d, e, d] <+ (sortResponses responses).map device → d = e) ∧
    ((igdText <:+: pkt → TakenForDiscovery cfg src pkt) ↔
      (igdText <:+: pkt → src.port = cfg.upnpPort ∨
        parseSsdpResponse pkt = none ∧ ¬Heeds cfg src pkt)) :=
  ⟨collected_iff responses, imp_congr_right fun _ => takenForDiscovery_iff cfg src pkt⟩

/-- A device that answers before and after another one is listed twice, and an answer from a port of
its own choice is not collected. -/
theorem device_listed_twice :
    let igd (n : String) : UpnpDiscoResponse := ⟨"http://192.168.1.1/", "igd", n⟩
    let other : UpnpDiscoResponse := ⟨"http://192.168.1.2/", "nas", "2"⟩
    let answer := utf8 "HTTP/1.1 200 OK\r\nST: InternetGatewayDevice:1\r\nLocation: http://192.168.1.1/\r\n"
    ¬Collected [igd "1", other, igd "3"] (processResponses [igd "1", other, igd "3"]) ∧
      igdText <:+: answer ∧ parseSsdpResponse answer = some ⟨"http://192.168.1.1/", "", ""⟩ ∧
      ¬TakenForDiscovery ⟨5351, 1900⟩ ⟨0xc0a80101, 40000⟩ answer := by
  intro igd other answer
  have hparse : parseSsdpResponse answer = some ⟨"http://192.168.1.1/", "", ""⟩ := by
    rw [parseSsdpResponse, ofUtf8_utf8]
    decide +kernel
  refine ⟨fun h => absurd h.once (by decide +kernel), by decide +kernel, hparse, fun h => ?_⟩
  simpa [hparse] using (takenForDiscovery_iff _ _ _).mp h

end Rustscale.Portmapper
