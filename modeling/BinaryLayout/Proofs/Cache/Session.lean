import BinaryLayout.FormatCache
import Mathlib.Data.List.Induction

/-!
# What a cache of formats changes

A session is a row of calls to one cache: texts are asked for as formats, bytes are decoded by a
text or by a format that an earlier call has handed out, and now and then all formats are dropped.
But for the serial numbers of the formats, no answer tells whether anything was kept.

There are three groups.

* One request.  `request_cases` says all that a request can do.  A cache is `Valid` when what it
  keeps for a text is what the text reads as, and requests keep it so (`Valid.request`).
* Sessions.  `Session.next` is one call, and `Session.after` is what a row of calls leads to.
* Plain answers.  `Call.plain` answers a call by reading its text anew.  `Session.Agrees` is the
  invariant of a session, `Agrees.step` carries it through one call, and `Session.agrees_after`
  through a row of them.
-/

namespace BinaryLayout

/-! ## One request -/

namespace FormatCache

variable {limits : Limits} {cache : FormatCache} {source : String}

theorem of_get?_eq_some {shared : SharedFormat} (h : cache.get? source = some shared) :
    shared ∈ cache.kept ∧ shared.format.source = source :=
  ⟨List.mem_of_find?_eq_some h, by simpa using List.find?_some h⟩

/-- A request finds the format that is kept, or is refused and changes nothing, or makes a format
and keeps it if there is room. -/
theorem request_cases (cache : FormatCache) (source : String) :
    (∃ shared, cache.get? source = some shared ∧ cache.request source = (.ok shared, cache)) ∨
    (∃ e, cache.get? source = none ∧ Format.ofText cache.limits source = .error e ∧
      cache.request source = (.error e, cache)) ∨
    (∃ format, cache.get? source = none ∧ Format.ofText cache.limits source = .ok format ∧
      cache.request source = (.ok ⟨cache.made, format⟩,
        { cache with made := cache.made + 1 }.keep ⟨cache.made, format⟩)) := by
  cases hget : cache.get? source with
  | some shared => exact .inl ⟨shared, rfl, by rw [request, hget]⟩
  | none =>
    cases htext : Format.ofText cache.limits source with
    | error e => exact .inr (.inl ⟨e, rfl, rfl, by rw [request, hget, htext]⟩)
    | ok format => exact .inr (.inr ⟨format, rfl, rfl, by rw [request, hget, htext]⟩)

/-- The cache reads texts under these limits, and what it keeps for a text is what the text reads
as. -/
structure Valid (limits : Limits) (cache : FormatCache) : Prop where
  limits_eq : cache.limits = limits
  kept : ∀ shared ∈ cache.kept, Format.ofText limits shared.format.source = .ok shared.format

theorem valid_of_kept_nil (hlimits : cache.limits = limits) (hkept : cache.kept = []) :
    cache.Valid limits :=
  ⟨hlimits, by simp [hkept]⟩

theorem Valid.clear (h : cache.Valid limits) : cache.clear.Valid limits :=
  valid_of_kept_nil h.limits_eq rfl

theorem Valid.keep (h : cache.Valid limits) {shared : SharedFormat}
    (hshared : Format.ofText limits shared.format.source = .ok shared.format) :
    (cache.keep shared).Valid limits := by
  unfold FormatCache.keep
  split
  · exact h
  · refine ⟨h.limits_eq, ?_⟩
    intro other hmem
    rcases List.mem_append.1 hmem with hold | hnew
    · exact h.kept other hold
    · rw [List.mem_singleton.1 hnew]
      exact hshared

/-- A request answers what the text reads as. -/
theorem Valid.request (h : cache.Valid limits) (source : String) :
    (cache.request source).1.map SharedFormat.format = Format.ofText limits source ∧
      (cache.request source).2.Valid limits := by
  rcases cache.request_cases source with ⟨shared, hget, heq⟩ | ⟨e, _, htext, heq⟩ |
    ⟨format, _, htext, heq⟩
  · obtain ⟨hmem, rfl⟩ := of_get?_eq_some hget
    rw [heq]
    exact ⟨(h.kept shared hmem).symm, h⟩
  · rw [h.limits_eq] at htext
    rw [heq, htext]
    exact ⟨rfl, h⟩
  · rw [h.limits_eq] at htext
    -- the new format is found again under the text that was asked for
    have hsource : format.source = source := (Format.ofText_eq_ok_iff.1 htext).2.2
    have hmade : Valid limits { cache with made := cache.made + 1 } := ⟨h.limits_eq, h.kept⟩
    rw [heq, htext]
    exact ⟨rfl, hmade.keep (by rw [hsource, htext])⟩

theorem Valid.unpack (h : cache.Valid limits) (source : String) (bytes : Payload) (offset : Int) :
    (cache.unpack source bytes offset).1 = BinaryLayout.unpack limits source bytes offset ∧
      (cache.unpack source bytes offset).2.Valid limits := by
  obtain ⟨hanswer, hnext⟩ := h.request source
  refine ⟨?_, hnext⟩
  have hdata : (cache.unpack source bytes offset).1 =
      (cache.request source).1.map fun shared => shared.format.decode bytes offset := rfl
  rw [BinaryLayout.unpack, ← hanswer, hdata]
  cases (cache.request source).1 with
  | error e => rfl
  | ok shared => rfl

end FormatCache

/-! ## Sessions -/

/-- What can be asked of a session. -/
inductive Call where
  /-- The format for a text. -/
  | format (source : String)
  /-- What bytes hold by a text. -/
  | unpack (source : String) (bytes : Payload) (offset : Int)
  /-- What bytes hold by the format that an earlier call has handed out. -/
  | reuse (call : Nat) (bytes : Payload) (offset : Int)
  /-- That all formats are dropped. -/
  | clear
deriving DecidableEq, Repr

/-- An answer with formats of some kind. -/
inductive Answer (φ : Type) where
  | format (answer : Except FormatError φ)
  | data (answer : Except FormatError (List Datum))
  /-- To a call that asks for nothing, or for a format that was not handed out. -/
  | nothing

namespace Answer

variable {φ ψ : Type}

/-- The format that is handed out. -/
def format? : Answer φ → Option φ
  | .format (.ok made) => some made
  | _ => none

/-- The same answer with formats of another kind. -/
def map (f : φ → ψ) : Answer φ → Answer ψ
  | .format answer => .format (answer.map f)
  | .data answer => .data answer
  | .nothing => .nothing

theorem format?_map (f : φ → ψ) (answer : Answer φ) :
    (answer.map f).format? = answer.format?.map f := by
  cases answer with
  | format answer =>
    cases answer with
    | error e => rfl
    | ok made => rfl
  | data answer => rfl
  | nothing => rfl

end Answer

/-- A cache, and the answers that have been given. -/
structure Session where
  cache : FormatCache
  answers : List (Answer SharedFormat)

namespace Session

/-- The session before the first call. -/
def start (limits : Limits) (capacity : Nat) : Session :=
  { cache := { limits := limits, capacity := capacity }, answers := [] }

/-- The answer to a call, and the cache after it. -/
def answer (session : Session) : Call → Answer SharedFormat × FormatCache
  | .format source =>
    let (answer, next) := session.cache.request source
    (.format answer, next)
  | .unpack source bytes offset =>
    let (answer, next) := session.cache.unpack source bytes offset
    (.data answer, next)
  | .reuse call bytes offset =>
    match session.answers[call]?.bind Answer.format? with
    | some shared => (.data (.ok (shared.format.decode bytes offset)), session.cache)
    | none => (.nothing, session.cache)
  | .clear => (.nothing, session.cache.clear)

/-- The session after one more call. -/
def next (session : Session) (call : Call) : Session where
  cache := (session.answer call).2
  answers := session.answers ++ [(session.answer call).1]

/-- The session after a row of calls. -/
def after (limits : Limits) (capacity : Nat) (calls : List Call) : Session :=
  calls.foldl next (start limits capacity)

theorem after_concat (limits : Limits) (capacity : Nat) (calls : List Call) (call : Call) :
    after limits capacity (calls ++ [call]) = (after limits capacity calls).next call := by
  rw [after, List.foldl_append]
  rfl

end Session

/-! ## Plain answers -/

namespace Call

/-- The format that a call asks for, if it asks for one and its text is one. -/
def format? (limits : Limits) : Call → Option Format
  | .format source => (Format.ofText limits source).toOption
  | _ => none

/-- The answer to a call after some calls when nothing is kept. -/
def plain (limits : Limits) (before : List Call) : Call → Answer Format
  | .format source => .format (Format.ofText limits source)
  | .unpack source bytes offset => .data (BinaryLayout.unpack limits source bytes offset)
  | .reuse call bytes offset =>
    match before[call]?.bind (format? limits) with
    | some found => .data (.ok (found.decode bytes offset))
    | none => .nothing
  | .clear => .nothing

theorem format?_plain (limits : Limits) (before : List Call) (call : Call) :
    (call.plain limits before).format? = call.format? limits := by
  cases call with
  | format source =>
    rw [plain, format?]
    cases Format.ofText limits source with
    | error e => rfl
    | ok format => rfl
  | unpack source bytes offset => rfl
  | reuse call bytes offset =>
    rw [plain]
    split
    · rfl
    · rfl
  | clear => rfl

end Call

namespace Session

/-- After some calls the cache is valid, and the formats that were handed out are those that the
texts of the calls read as.  The second part is what later calls with these formats rest on. -/
structure Agrees (limits : Limits) (before : List Call) (session : Session) : Prop where
  cache : session.cache.Valid limits
  handedOut : session.answers.map (fun answer => answer.format?.map SharedFormat.format) =
    before.map (Call.format? limits)

variable {limits : Limits} {before : List Call} {session : Session}

theorem agrees_start (limits : Limits) (capacity : Nat) : (start limits capacity).Agrees limits [] :=
  ⟨FormatCache.valid_of_kept_nil rfl rfl, rfl⟩

theorem Agrees.format?_getElem? (h : session.Agrees limits before) (call : Nat) :
    (session.answers[call]?.bind Answer.format?).map SharedFormat.format =
      before[call]?.bind (Call.format? limits) := by
  have hcall := congrArg (fun formats => formats[call]?.bind id) h.handedOut
  rw [List.getElem?_map, List.getElem?_map, Option.bind_map, Option.bind_map] at hcall
  rw [Option.map_bind]
  exact hcall

/-- A call gets its plain answer and leaves a valid cache. -/
theorem Agrees.answer (h : session.Agrees limits before) (call : Call) :
    (session.answer call).1.map SharedFormat.format = call.plain limits before ∧
      (session.answer call).2.Valid limits := by
  cases call with
  | format source =>
    obtain ⟨hanswer, hnext⟩ := h.cache.request source
    exact ⟨congrArg Answer.format hanswer, hnext⟩
  | unpack source bytes offset =>
    obtain ⟨hanswer, hnext⟩ := h.cache.unpack source bytes offset
    exact ⟨congrArg Answer.data hanswer, hnext⟩
  | reuse call bytes offset =>
    rw [Session.answer, Call.plain, ← h.format?_getElem? call]
    cases session.answers[call]?.bind Answer.format? with
    | none => exact ⟨rfl, h.cache⟩
    | some shared => exact ⟨rfl, h.cache⟩
  | clear => exact ⟨rfl, h.cache.clear⟩

theorem Agrees.step (h : session.Agrees limits before) (call : Call) :
    (session.next call).Agrees limits (before ++ [call]) := by
  obtain ⟨hanswer, hnext⟩ := h.answer call
  refine ⟨hnext, ?_⟩
  rw [next, List.map_append, List.map_append, h.handedOut, List.map_singleton, List.map_singleton,
    ← Answer.format?_map, hanswer, Call.format?_plain]

theorem agrees_after (limits : Limits) (capacity : Nat) (calls : List Call) :
    (after limits capacity calls).Agrees limits calls := by
  induction calls using List.reverseRecOn with
  | nil => exact agrees_start limits capacity
  | append_singleton calls call ih =>
    rw [after_concat]
    exact ih.step call

/-- **A cache is not seen in the answers.**

Whatever the limits and the capacity are and whatever calls came before, what the cache keeps for a
text is what the text reads as, and the answer to a call is the one that it gets when its text is
read anew: formats and data are the same, and so are the refusals.  A format that was handed out
decodes as before, also when it has been dropped since. -/
theorem answer_after (limits : Limits) (capacity : Nat) (before : List Call) (call : Call) :
    (after limits capacity before).cache.Valid limits ∧
      ((after limits capacity before).answer call).1.map SharedFormat.format =
        call.plain limits before :=
  have hsession := agrees_after limits capacity before
  ⟨hsession.cache, (hsession.answer call).1⟩

end Session

end BinaryLayout
