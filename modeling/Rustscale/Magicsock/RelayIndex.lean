import Rustscale.Magicsock.RelayChanges

/-! The index of the handshakes by server and number. -/
namespace Rustscale.RelayManager
open Disco HashTable

def Indexed (s : State) : Prop := ∀ sdv peer, s.handshakeBySdv.lookup sdv = some peer ↔
  ∃ work, s.handshakeWork.lookup (peer, sdv.serverDisco) = some work ∧ work.vni = sdv.vni

section
variable {s s' : State} {out : List Effect}

section
variable (h : Indexed s)
include h

theorem Indexed.free {sdv : ServerDiscoVni} (hvacant : Vacant s sdv) :
    s.handshakeBySdv.lookup sdv = none := by
  rw [Option.eq_none_iff_forall_ne_some]
  intro peer hpeer
  obtain ⟨work, hwork, -⟩ := (h sdv peer).mp hpeer
  rw [hvacant peer hpeer] at hwork
  cases hwork

theorem Indexed.peer_eq {peer peer' : NodePublic} {sd : DiscoPublic} {work work' : HandshakeWork}
    (hwork : s.handshakeWork.lookup (peer, sd) = some work)
    (hwork' : s.handshakeWork.lookup (peer', sd) = some work') (hvni : work.vni = work'.vni) :
    peer = peer' :=
  Option.some.inj (((h ⟨sd, work'.vni⟩ peer).mpr ⟨work, hwork, hvni⟩).symm.trans
    ((h ⟨sd, work'.vni⟩ peer').mpr ⟨work', hwork', rfl⟩))

theorem Indexed.remove {peer : NodePublic} {sd : DiscoPublic} {work : HandshakeWork}
    (hfound : s.handshakeWork.lookup (peer, sd) = some work)
    (hwork : s'.handshakeWork = s.handshakeWork.erase (peer, sd))
    (hindex : s'.handshakeBySdv = s.handshakeBySdv.erase ⟨sd, work.vni⟩) : Indexed s' := by
  intro sdv p
  rw [hindex, hwork, lookup_erase_eq_some, h sdv p]
  constructor
  · rintro ⟨hne, w, hw, hv⟩
    refine ⟨w, lookup_erase_eq_some.mpr ⟨fun heq => hne ?_, hw⟩, hv⟩
    cases heq
    obtain rfl := Option.mem_unique hfound hw
    rw [hv]
  · rintro ⟨w, hw, hv⟩
    obtain ⟨hne, hw⟩ := lookup_erase_eq_some.mp hw
    refine ⟨fun heq => hne ?_, w, hw, hv⟩
    subst heq
    rw [h.peer_eq hw hfound hv]

theorem Indexed.stopWork (peer : NodePublic) : Indexed (s.stopWork peer).1 := by
  intro sdv p
  simp only [State.stopWork, lookup_eraseAll_eq_some, lookup_retain_eq_some, List.mem_map,
    List.mem_filter, mem_pairs, Prod.exists, h sdv p]
  constructor
  · rintro ⟨hnot, w, hw, hv⟩
    refine ⟨w, ⟨hw, ?_⟩, hv⟩
    simp only [bne_iff_ne, ne_eq]
    rintro rfl
    exact hnot ⟨p, sdv.serverDisco, w, ⟨hw, by simp⟩, by rw [hv]⟩
  · rintro ⟨w, ⟨hw, hne⟩, hv⟩
    refine ⟨?_, w, hw, hv⟩
    rintro ⟨q, sd, w', ⟨hw', hq⟩, rfl⟩
    obtain rfl := h.peer_eq hw hw' hv
    simp_all

theorem Indexed.change (hc : Change s out s') : Indexed s' := by
  cases hc with
  | quiet | count | allocStop | allocDone | allocStart | challenge => exact h
  | cancel found => exact h.remove found rfl rfl
  | start args gen absent vacant =>
    intro sdv p
    simp only [lookup_insert_eq_some, h sdv p]
    constructor
    · rintro (⟨rfl, rfl⟩ | ⟨hne, w, hw, hv⟩)
      · exact ⟨args.work s.spawned, .inl ⟨rfl, rfl⟩, rfl⟩
      · refine ⟨w, .inr ⟨fun heq => ?_, hw⟩, hv⟩
        rw [heq, absent] at hw
        cases hw
    · rintro ⟨w, ⟨hkey, rfl⟩ | ⟨hne, hw⟩, hv⟩
      · obtain ⟨rfl, hsd⟩ := Prod.mk.inj hkey
        refine .inl ⟨?_, rfl⟩
        rw [← hsd, show args.serverEndpoint.vni = sdv.vni from hv]
      · refine .inr ⟨?_, w, hw, hv⟩
        rintro rfl
        have hentry := (h _ _).mpr ⟨w, hw, hv⟩
        rw [h.free vacant] at hentry
        cases hentry

theorem Indexed.changes (hc : Changes s out s') : Indexed s' := by
  induction hc with
  | nil => exact h
  | cons change _ ih => exact ih (h.change change)

theorem Indexed.completes {ctx : Context} {result : HandshakeWorkResult}
    (hc : Completes s ctx result out s')
    (hvni : ∀ work, s.handshakeWork.lookup (result.peerKey, result.serverDisco) = some work →
      work.Matches result → work.vni = result.vni) : Indexed s' := by
  have hretire : ∀ work, s.handshakeWork.lookup (result.peerKey, result.serverDisco) = some work →
      work.Matches result → Indexed (s.retire result) := by
    intro work hfound hsame
    refine h.remove hfound rfl ?_
    rw [hvni work hfound hsame]
    rfl
  cases hc with
  | ignored _ => exact h
  | retired found same | installed found same _ => exact hretire _ found same

end

end

end Rustscale.RelayManager
