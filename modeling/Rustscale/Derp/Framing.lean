import Rustscale.Lib.Bytes
import Rustscale.Lib.Machine
import Rustscale.Lib.Utf8

/-! How the DERP server cuts a connection into frames: the upgrade request, the bytes read along
with it, and a read loop that races the header against the keepalive timer. -/
namespace Rustscale.Derp.Framing
open Octets Bytes List Utf8 Option

/-- A frame as it is dispatched. -/
structure Frame where
  typ : Byte
  body : List Byte
  deriving DecidableEq

def clientInfo : Byte := 0x02

def sendPacket : Byte := 0x04

def ping : Byte := 0x12

def maxPacketSize : ℕ := 65536

def maxFrameSize : ℕ := 131072

def encodeFrameHeader (typ : Byte) (len : ℕ) : List Byte := typ :: toBytes .big 4 len

def decodeFrameHeader (buf : List Byte) : Byte × ℕ := (get buf 0, num 4 buf 1)

def Frame.encode (f : Frame) : List Byte := encodeFrameHeader f.typ f.body.length ++ f.body

/-- What is checked before a body is read; the first frame has to be the client's key. -/
def acceptsHeader (first : Bool) (typ : Byte) (len : ℕ) : Bool :=
  if first then typ == clientInfo && decide (56 ≤ len ∧ len ≤ maxFrameSize)
  else if typ = sendPacket then decide (32 ≤ len ∧ len ≤ maxFrameSize)
  else if typ = ping then decide (8 ≤ len ∧ len ≤ maxFrameSize)
  else true

def acceptsBody (first : Bool) (typ : Byte) (len : ℕ) : Bool :=
  first || typ != sendPacket || decide (len - 32 ≤ maxPacketSize)

def headEnd : List Byte := [13, 10, 13, 10]

def find (pat : List Byte) : List Byte → Option ℕ
  | [] => if pat.isEmpty then some 0 else none
  | b :: l => if pat <+: b :: l then some 0 else (find pat l).map (· + 1)

def toAsciiLowercase (text : List Byte) : List Byte :=
  text.map fun b => if 65 ≤ b ∧ b ≤ 90 then b + 32 else b

def isDerpUpgrade (request : List Byte) : Bool :=
  let line := request.takeWhile (· != 10)
  decide (utf8 "GET /derp" <:+: line ∧ utf8 "HTTP/1.1" <:+: line ∧
    utf8 "upgrade: derp" <:+: toAsciiLowercase request)

/-- What the read loop waits for, with the bytes it has so far. -/
inductive Phase where
  | request (buf : List Byte)
  | header (first : Bool) (got : List Byte)
  | body (first : Bool) (typ : Byte) (len : ℕ) (got : List Byte)
  | refused
  | failed
  | closed
  deriving DecidableEq

/-- The bytes left of those read with the request, and those not read yet. -/
structure Conn where
  phase : Phase
  leftover : List Byte := []
  unread : List Byte

inductive Event where
  | frame (f : Frame)
  /-- The timer won against a header that was read in part. -/
  | lost (bytes : List Byte)
  | closed
  deriving DecidableEq

/-- A read of up to `n` bytes, a tick of the keepalive timer, or the end. -/
inductive Action where
  | read (n : ℕ)
  | tick
  | close

variable (s : Conn)

/-- Up to `want` bytes: all of the leftover, otherwise as many as the socket has. -/
def Conn.poll (want n : ℕ) : Option (List Byte × Conn) :=
  if s.leftover ≠ [] then
    some (s.leftover.take want, { s with leftover := s.leftover.drop want })
  else if 1 ≤ n ∧ n ≤ s.unread.length ∧ n ≤ want then
    some (s.unread.take n, { s with unread := s.unread.drop n })
  else none

variable (first : Bool)

def Conn.gotBody (typ : Byte) (len : ℕ) (got : List Byte) : Conn × List Event :=
  if got.length < len then ({ s with phase := .body first typ len got }, [])
  else if acceptsBody first typ len then
    ({ s with phase := .header false [] }, [.frame ⟨typ, got⟩])
  else ({ s with phase := .failed }, [])

def Conn.gotHeader (got : List Byte) : Conn × List Event :=
  if got.length < 5 then ({ s with phase := .header first got }, [])
  else if acceptsHeader first (decodeFrameHeader got).1 (decodeFrameHeader got).2 then
    s.gotBody first (decodeFrameHeader got).1 (decodeFrameHeader got).2 []
  else ({ s with phase := .failed }, [])

/-- The bytes that the server still has to read. -/
def Conn.pending : List Byte := s.leftover ++ s.unread

/-- The head ends where the decoded copy of the request has its end. -/
def Conn.gotRequest (buf : List Byte) : Conn :=
  if ¬ headEnd <:+: buf then { s with phase := .request buf }
  else if !isDerpUpgrade (lossy buf) then { s with phase := .refused }
  else
    let headerEnd := ((find headEnd (lossy buf)).map (· + 4)).getD buf.length
    if buf.length < headerEnd then { s with phase := .failed }
    else { s with phase := .header true [], leftover := buf.drop headerEnd }

def Conn.step : Action → Option (Conn × List Event)
  | .close => some ({ s with phase := .closed }, [.closed])
  | .tick =>
    match s.phase with
    | .header false [] => some (s, [])
    | .header false got => some ({ s with phase := .header false [] }, [.lost got])
    | _ => none
  | .read n =>
    match s.phase with
    | .request buf =>
      if 1 ≤ n ∧ n ≤ s.unread.length then
        some ({ s with unread := s.unread.drop n }.gotRequest (buf ++ s.unread.take n), [])
      else none
    | .header first got =>
      (s.poll (5 - got.length) n).map fun (chunk, s) => s.gotHeader first (got ++ chunk)
    | .body first typ len got =>
      (s.poll (len - got.length) n).map fun (chunk, s) => s.gotBody first typ len (got ++ chunk)
    | _ => none

def connection (bytes : List Byte) : Machine Conn Action Event where
  start := { phase := .request [], unread := bytes }
  step := Conn.step

def encodeAll (fs : List Frame) : List Byte := fs.flatMap Frame.encode

def WellFormed (f : Frame) : Prop :=
  f.body.length < 2 ^ 32 ∧ acceptsHeader first f.typ f.body.length = true ∧
    acceptsBody first f.typ f.body.length = true

/-- The key of the client comes first. -/
def WellFormedAll : List Frame → Prop
  | [] => True
  | f :: fs => WellFormed true f ∧ ∀ g ∈ fs, WellFormed false g

/-- A text that asks for an upgrade, up to its first empty line. -/
structure Head (bytes : List Byte) : Prop where
  text : ∃ text : String, bytes = utf8 text
  ends : headEnd <:+ bytes
  first : ¬ headEnd <:+: bytes.dropLast
  get : utf8 "GET /derp" <:+: bytes.takeWhile (· != 10)
  version : utf8 "HTTP/1.1" <:+: bytes.takeWhile (· != 10)
  upgrade : utf8 "upgrade: derp" <:+: toAsciiLowercase bytes

def sent (log : List Event) : List Frame :=
  log.filterMap fun
    | .frame f => some f
    | .lost _ | .closed => none

def Event.isLost : Event → Bool
  | .lost _ => true
  | .frame _ | .closed => false

/-- No tick comes while a header is read in part. -/
def NothingLost (_log new : List Event) : Prop := new.any Event.isLost = false

instance (log new : List Event) : Decidable (NothingLost log new) :=
  inferInstanceAs (Decidable (_ = false))

section
variable {head rest tail buf got : List Byte} {first : Bool} {f : Frame} {fs todo frames : List Frame}
  {log new : List Event} {s s' : Conn} {n : ℕ}

/-- The search finds the first end of a head. -/
theorem find_headEnd (hends : headEnd <:+ head) (hfirst : ¬ headEnd <:+: head.dropLast) :
    find headEnd (head ++ rest) = some (head.length - 4) := by
  induction head with
  | nil => simp [headEnd] at hends
  | cons b head ih =>
    have hlen := hends.length_le
    simp only [cons_append, find]
    by_cases hpre : headEnd <+: b :: (head ++ rest)
    · rw [if_pos hpre]
      have hshort : (b :: head).length ≤ 4 := by
        by_contra hlong
        have hin : headEnd <+: (b :: head).dropLast :=
          prefix_of_prefix_length_le hpre
            (( dropLast_prefix _).trans (prefix_append (b :: head) rest))
            (by simp [headEnd] at hlong ⊢; omega)
        exact hfirst hin.isInfix
      simp at hshort ⊢
      omega
    · rw [if_neg hpre]
      rcases suffix_cons_iff.mp hends with heq | hends
      · exact absurd (heq ▸ prefix_append _ rest) hpre
      · have hne : head ≠ [] := by
          rintro rfl
          simp [headEnd] at hends
        have hlen := hends.length_le
        rw [ih hends fun hin => hfirst ?_]
        · simp [headEnd] at hlen ⊢
          omega
        · rw [dropLast_cons_of_ne_nil hne]
          exact infix_cons hin

theorem Head.of_infix (h : Head head) (hin : headEnd <:+: buf) (heq : buf ++ rest = head ++ tail) :
    ∃ more, buf = head ++ more ∧ more ++ rest = tail := by
  rcases append_eq_append_iff.mp heq with ⟨more, hhead, hrest⟩ | ⟨more, hbuf, htail⟩
  · by_cases hmore : more = []
    · subst hmore
      exact ⟨[], by simpa using hhead.symm, by simpa using hrest⟩
    · have hdrop : head.dropLast = buf ++ more.dropLast := by
        rw [hhead, dropLast_append_of_ne_nil hmore]
      exact absurd (hdrop ▸ hin.trans (infix_append' [] buf _)) h.first
  · exact ⟨more, hbuf, htail.symm⟩

theorem length_encodeFrameHeader (typ : Byte) (len : ℕ) :
    (encodeFrameHeader typ len).length = 5 := rfl

theorem decodeFrameHeader_encode (typ : Byte) {len : ℕ} (h : len < 2 ^ 32) :
    decodeFrameHeader (encodeFrameHeader typ len) = (typ, len) := by
  have hslice : slice (encodeFrameHeader typ len) 1 4 = toBytes .big 4 len := rfl
  have hmod : len % 256 ^ 4 = len := Nat.mod_eq_of_lt h
  rw [decodeFrameHeader, num, hslice, ofBytes_toBytes, hmod]
  rfl

theorem Head.isDerpUpgrade (h : Head head) (more : List Byte) :
    isDerpUpgrade (head ++ more) = true := by
  have hline : head.takeWhile (· != 10) <:+: (head ++ more).takeWhile (· != 10) := by
    rw [takeWhile_append]
    split_ifs
    · exact (( takeWhile_prefix _).trans (prefix_append head _)).isInfix
    · exact infix_rfl
  have hlower : toAsciiLowercase head <:+: toAsciiLowercase (head ++ more) :=
    ((prefix_append head more).map _).isInfix
  exact decide_eq_true ⟨h.get.trans hline, h.version.trans hline, h.upgrade.trans hlower⟩

theorem poll_spec {want : ℕ} {chunk : List Byte} (hwant : 0 < want)
    (h : s.poll want n = some (chunk, s')) :
    chunk.length ≤ want ∧ chunk ++ s'.pending = s.pending ∧ chunk ≠ [] := by
  unfold Conn.poll at h
  split_ifs at h with hl hn
  · cases h
    exact ⟨length_take_le _ _, by simp [Conn.pending, ← append_assoc], by simp [hl, hwant.ne']⟩
  · cases h
    have hl : s.leftover = [] := by simpa using hl
    have hunread : s.unread ≠ [] := length_pos_iff.mp (by omega)
    exact ⟨(length_take_le _ _).trans hn.2.2, by simp [Conn.pending, hl], by
      simp [hunread, show n ≠ 0 by omega]⟩

/-- Where there are bytes, a read of one is enabled. -/
theorem poll_enabled {want : ℕ} (hwant : 0 < want) (h : s.pending ≠ []) :
    ∃ r, s.poll want 1 = some r := by
  unfold Conn.poll
  split_ifs with hl hn
  · exact ⟨_, rfl⟩
  · exact ⟨_, rfl⟩
  · have hl : s.leftover = [] := by simpa using hl
    rw [Conn.pending, hl, nil_append, ← length_pos_iff] at h
    exact absurd ⟨le_rfl, h, hwant⟩ hn

def Inv (head : List Byte) (frames : List Frame) (log : List Event) (s : Conn) : Prop :=
  ∃ todo, frames = sent log ++ todo ∧
    match s.phase with
    | .request buf => sent log = [] ∧ s.leftover = [] ∧ buf ++ s.unread = head ++ encodeAll todo ∧
        ¬headEnd <:+: buf
    | .header first got => got.length < 5 ∧ (first = true ↔ sent log = []) ∧
        got ++ s.pending = encodeAll todo
    | .body first typ len got => got.length < len ∧ (first = true ↔ sent log = []) ∧
        ∃ body todo', todo = ⟨typ, body⟩ :: todo' ∧ len = body.length ∧
          got ++ s.pending = body ++ encodeAll todo'
    | .closed => .closed ∈ log
    | .refused | .failed => False

theorem WellFormedAll.next (h : WellFormedAll (sent log ++ f :: todo))
    (hfirst : first = true ↔ sent log = []) : WellFormed first f := by
  cases hsent : sent log with
  | nil =>
    rw [hsent] at h
    rw [hfirst.mpr hsent]
    exact h.1
  | cons g gs =>
    rw [hsent] at h hfirst
    rw [show first = false by simpa using hfirst]
    exact h.2 f (by simp)

theorem gotBody_inv (hwf : WellFormedAll frames) (hframes : frames = sent log ++ f :: todo)
    (hfirst : first = true ↔ sent log = []) (hlen : got.length ≤ f.body.length)
    (hbytes : got ++ s.pending = f.body ++ encodeAll todo) :
    Inv head frames (log ++ (s.gotBody first f.typ f.body.length got).2)
      (s.gotBody first f.typ f.body.length got).1 := by
  unfold Conn.gotBody
  split_ifs with hmore hok
  · exact ⟨f :: todo, by simpa using hframes, hmore, by simpa using hfirst, f.body, todo, rfl, rfl,
      hbytes⟩
  · obtain ⟨hgot, hrest⟩ := append_inj hbytes (by omega)
    subst hgot
    exact ⟨todo, by simp [sent, hframes], by simp, by simp [sent], by simpa [Conn.pending] using hrest⟩
  · rw [hframes] at hwf
    exact absurd (hwf.next hfirst).2.2 hok

/-- The invariant over the bytes of a frame header. -/
theorem gotHeader_inv (hwf : WellFormedAll frames) (hframes : frames = sent log ++ todo)
    (hfirst : first = true ↔ sent log = []) (hlen : got.length ≤ 5)
    (hbytes : got ++ s.pending = encodeAll todo) :
    Inv head frames (log ++ (s.gotHeader first got).2) (s.gotHeader first got).1 := by
  unfold Conn.gotHeader
  by_cases hmore : got.length < 5
  · rw [if_pos hmore]
    exact ⟨todo, by simpa using hframes, hmore, by simpa using hfirst, hbytes⟩
  rw [if_neg hmore]
  cases todo with
  | nil =>
    have hnil : got = [] := (append_eq_nil_iff.mp hbytes).1
    simp [hnil] at hmore
  | cons f todo =>
    have hf := hwf
    rw [hframes] at hf
    obtain ⟨hsize, hok, -⟩ := hf.next hfirst
    have hsplit : got ++ s.pending =
        encodeFrameHeader f.typ f.body.length ++ (f.body ++ encodeAll todo) := by
      rw [hbytes]
      simp [encodeAll, Frame.encode]
    obtain ⟨hgot, hrest⟩ := append_inj hsplit (by rw [length_encodeFrameHeader]; omega)
    rw [hgot, decodeFrameHeader_encode _ hsize, if_pos hok]
    exact gotBody_inv hwf hframes hfirst (Nat.zero_le _) hrest

/-- What was read along with the head is left over. -/
theorem Head.gotRequest (h : Head head) (s : Conn) (more : List Byte) :
    s.gotRequest (head ++ more) = { s with phase := .header true [], leftover := more } := by
  have hin : headEnd <:+: head ++ more := h.ends.isInfix.trans (prefix_append head more).isInfix
  obtain ⟨text, htext⟩ := h.text
  have hlossy : lossy (head ++ more) = head ++ lossy more := by rw [htext, lossy_append]
  have hend : head.length - 4 + 4 = head.length := Nat.sub_add_cancel h.ends.length_le
  unfold Conn.gotRequest
  simp only [not_not.mpr hin, hlossy, h.isDerpUpgrade, find_headEnd h.ends h.first, map_some,
    getD_some, hend]
  simp

theorem gotRequest_inv (hhead : Head head) (hframes : frames = sent log ++ todo)
    (hsent : sent log = []) (hleft : s.leftover = [])
    (hbytes : buf ++ s.unread = head ++ encodeAll todo) :
    Inv head frames log (s.gotRequest buf) := by
  by_cases hin : headEnd <:+: buf
  · obtain ⟨more, rfl, hmore⟩ := hhead.of_infix hin hbytes
    rw [hhead.gotRequest]
    exact ⟨todo, hframes, by simp, by simpa using hsent, by simpa [Conn.pending] using hmore⟩
  · rw [Conn.gotRequest, if_pos hin]
    exact ⟨todo, hframes, hsent, hleft, hbytes, hin⟩

theorem gotRequest_pending (hhead : Head head) (hbefore : ¬headEnd <:+: buf) (hgot : got ≠ [])
    (hleft : s.leftover = []) (hbytes : buf ++ got ++ s.unread = head ++ tail) :
    (s.gotRequest (buf ++ got)).pending.length < got.length + s.unread.length := by
  by_cases hin : headEnd <:+: buf ++ got
  · obtain ⟨more, hmore, -⟩ := hhead.of_infix hin hbytes
    -- the head does not end before the bytes that were just read
    have hshort : buf.length < head.length := by
      by_contra hlong
      have hprefix : head <+: buf := prefix_of_prefix_length_le (hmore ▸ prefix_append head more)
        (prefix_append buf got) (not_lt.mp hlong)
      exact hbefore (hhead.ends.isInfix.trans hprefix.isInfix)
    have hlen := congrArg length hmore
    rw [hmore, hhead.gotRequest, Conn.pending]
    simp only [length_append] at hlen ⊢
    omega
  · rw [Conn.gotRequest, if_pos hin, Conn.pending, hleft]
    simpa using length_pos_iff.mpr hgot

/-- Step: as long as no byte is lost, what is delivered is what was sent. -/
theorem Inv.step (hhead : Head head) (hwf : WellFormedAll frames) {a : Action}
    (h : Inv head frames log s) (hs : s.step a = some (s', new)) (hkept : NothingLost log new) :
    Inv head frames (log ++ new) s' := by
  obtain ⟨todo, hframes, h⟩ := h
  cases a with
  | close =>
    cases hs
    exact ⟨todo, by simpa [sent] using hframes, by simp⟩
  | tick =>
    simp only [Conn.step] at hs
    split at hs
    · cases hs
      exact ⟨todo, by simpa using hframes, by simpa using h⟩
    · cases hs
      cases hkept
    · cases hs
  | read n =>
    simp only [Conn.step] at hs
    split at hs
    · next buf hphase =>
      rw [hphase] at h
      split_ifs at hs
      cases hs
      rw [append_nil]
      exact gotRequest_inv hhead hframes h.1 h.2.1 (by simpa using h.2.2.1)
    · next first got hphase =>
      rw [hphase] at h
      obtain ⟨⟨chunk, t⟩, hpoll, hs⟩ := map_eq_some_iff.mp hs
      obtain ⟨hlen, hbytes, -⟩ := poll_spec (by omega) hpoll
      obtain ⟨rfl, rfl⟩ := Prod.mk.inj hs
      refine gotHeader_inv hwf hframes h.2.1 (by simp; omega) ?_
      rw [append_assoc, hbytes]
      exact h.2.2
    · next first typ len got hphase =>
      rw [hphase] at h
      obtain ⟨hgot, hfirst, body, todo', rfl, rfl, hrest⟩ := h
      obtain ⟨⟨chunk, t⟩, hpoll, hs⟩ := map_eq_some_iff.mp hs
      obtain ⟨hlen, hbytes, -⟩ := poll_spec (by omega) hpoll
      obtain ⟨rfl, rfl⟩ := Prod.mk.inj hs
      refine gotBody_inv hwf hframes hfirst (by simp; omega) ?_
      rw [append_assoc, hbytes]
      exact hrest
    · cases hs

theorem gotBody_pending (s : Conn) (first : Bool) (typ : Byte) (len : ℕ) (got : List Byte) :
    (s.gotBody first typ len got).1.pending = s.pending := by
  unfold Conn.gotBody
  split_ifs <;> rfl

theorem gotHeader_pending (s : Conn) (first : Bool) (got : List Byte) :
    (s.gotHeader first got).1.pending = s.pending := by
  unfold Conn.gotHeader
  split_ifs
  · rfl
  · exact gotBody_pending ..
  · rfl

/-- Until the connection is closed a read is enabled as long as there are bytes, each leaves fewer,
and without any all frames are dispatched. -/
structure Progress (frames : List Frame) (log : List Event) (s : Conn) : Prop where
  done : s.pending = [] → sent log = frames
  enabled : s.pending ≠ [] → ∃ r, s.step (.read 1) = some r
  less : ∀ n s' new, s.step (.read n) = some (s', new) → s'.pending.length < s.pending.length

theorem Progress.of_poll {want : ℕ} (hwant : 0 < want) {got : List Byte → Conn → Conn × List Event}
    (hread : ∀ n, s.step (.read n) = (s.poll want n).map fun r => got r.1 r.2)
    (hgot : ∀ chunk t, (got chunk t).1.pending = t.pending)
    (hdone : s.pending = [] → sent log = frames) : Progress frames log s := by
  refine ⟨hdone, fun hp => ?_, fun n s' new hs => ?_⟩
  · obtain ⟨r, hr⟩ := poll_enabled hwant hp
    exact ⟨_, by rw [hread, hr]; rfl⟩
  · rw [hread] at hs
    obtain ⟨⟨chunk, t⟩, hpoll, hs⟩ := map_eq_some_iff.mp hs
    obtain ⟨-, hbytes, hne⟩ := poll_spec hwant hpoll
    obtain rfl : (got chunk t).1 = s' := congrArg Prod.fst hs
    rw [hgot, ← hbytes, length_append]
    exact Nat.lt_add_of_pos_left (length_pos_iff.mpr hne)

/-- Every read brings an open connection nearer its end, where all frames are delivered. -/
theorem Inv.progress (hhead : Head head) (h : Inv head frames log s) (hopen : .closed ∉ log) :
    Progress frames log s := by
  obtain ⟨todo, hframes, h⟩ := h
  cases hphase : s.phase with
  | request buf =>
    simp only [hphase] at h
    obtain ⟨-, hleft, hbytes, hbefore⟩ := h
    have hpending : s.pending = s.unread := by rw [Conn.pending, hleft, nil_append]
    have hread : ∀ n, s.step (.read n) = if 1 ≤ n ∧ n ≤ s.unread.length then
        some ({ s with unread := s.unread.drop n }.gotRequest (buf ++ s.unread.take n), []) else none :=
      fun n => by simp only [Conn.step, hphase]
    refine ⟨fun hp => ?_, fun hp => ?_, fun n s' new hs => ?_⟩
    · rw [hpending] at hp
      rw [hp, append_nil] at hbytes
      exact absurd (hbytes ▸ hhead.ends.isInfix.trans (prefix_append head _).isInfix) hbefore
    · rw [hread, if_pos ⟨le_rfl, length_pos_iff.mpr (hpending ▸ hp)⟩]
      exact ⟨_, rfl⟩
    · rw [hread] at hs
      split_ifs at hs with hn
      cases hs
      rw [hpending]
      have hgot : s.unread.take n ≠ [] := by
        rw [← length_pos_iff, length_take]
        omega
      have hless := gotRequest_pending (s := { s with unread := s.unread.drop n }) hhead hbefore hgot
        hleft (by simpa using hbytes)
      exact hless.trans_eq (by rw [length_take, length_drop]; omega)
  | header first got =>
    simp only [hphase] at h
    refine .of_poll (by omega : 0 < 5 - got.length) (fun n => by simp only [Conn.step, hphase])
      (fun chunk t => gotHeader_pending t first (got ++ chunk)) fun hp => ?_
    cases todo with
    | nil => simpa using hframes.symm
    | cons f todo =>
      have hlen := congrArg length h.2.2
      simp [hp, encodeAll, Frame.encode, encodeFrameHeader] at hlen
      omega
  | body first typ len got =>
    simp only [hphase] at h
    obtain ⟨hgot, hfirst, body, todo', rfl, rfl, hrest⟩ := h
    refine .of_poll (by omega : 0 < body.length - got.length)
      (fun n => by simp only [Conn.step, hphase])
      (fun chunk t => gotBody_pending t first typ body.length (got ++ chunk)) fun hp => ?_
    have hlen := congrArg length hrest
    simp only [hp, length_append, length_nil] at hlen
    omega
  | closed =>
    rw [hphase] at h
    exact absurd h hopen
  | refused | failed =>
    rw [hphase] at h
    exact h.elim

end

def upgradeHead : List Byte := utf8 "GET /derp HTTP/1.1\r\nUpgrade: DERP\r\n\r\n"

def keyAndPing : List Frame :=
  [⟨clientInfo, replicate 56 0⟩, ⟨ping, [0, 0, 0, 2, 9, 9, 7, 7]⟩]

theorem upgradeHead_head : Head upgradeHead :=
  ⟨⟨_, rfl⟩, by decide +kernel, by decide +kernel, by decide +kernel, by decide +kernel,
    by decide +kernel⟩

theorem keyAndPing_wellFormed : WellFormedAll keyAndPing :=
  ⟨⟨by decide, by decide, by decide⟩, forall_mem_singleton.mpr ⟨by decide, rfl, rfl⟩⟩

end Rustscale.Derp.Framing
