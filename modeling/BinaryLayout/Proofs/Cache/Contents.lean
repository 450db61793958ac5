import BinaryLayout.Proofs.Cache.Session
import BinaryLayout.Proofs.Mapping.Writes
import Mathlib.Data.List.DropRight
import Mathlib.Tactic.Ring

/-!
# What a cache of formats keeps

A cache keeps the texts that it was asked for first, as many as it has room for.  Which texts these
are follows from the calls alone, and this module says so for every row of them.

There are three groups.

* Texts asked for.  `Call.requested` are the distinct formats asked for since all were dropped, in
  the order in which each was first asked for.
* One call.  `Session.cache_next_cases` says what a call can do to the cache, and
  `Valid.sources_request` what a request does to the texts that are kept.
* A row of calls.  `Session.sources_after` is the invariant, and `Session.contents_after` what it
  says about the number of formats kept, about rows without a clearing, and about refused texts.
-/

namespace BinaryLayout

/-! ## Texts asked for -/

namespace Call

/-- The text that a call asks for, as a format or to decode bytes by it. -/
def source? : Call → Option String
  | .format source => some source
  | .unpack source _ _ => some source
  | .reuse _ _ _ => none
  | .clear => none

/-- The text that a call asks for, if it is a format. -/
def accepted? (limits : Limits) (call : Call) : Option String :=
  call.source?.filter fun source => (Format.ofText limits source).isOk

/-- The distinct formats asked for since all formats were last dropped, in the order in which each
was first asked for. -/
def requested (limits : Limits) (calls : List Call) : List String :=
  ((calls.rtakeWhile (· != .clear)).filterMap (accepted? limits)).eraseDups

variable {limits : Limits} {call : Call} {source : String}

theorem accepted?_of_ok (hsource : call.source? = some source)
    {format : Format} (htext : Format.ofText limits source = .ok format) :
    call.accepted? limits = some source := by
  rw [accepted?, hsource, Option.filter_some, htext]
  rfl

theorem accepted?_of_error (hsource : call.source? = some source)
    {e : FormatError} (htext : Format.ofText limits source = .error e) :
    call.accepted? limits = none := by
  rw [accepted?, hsource, Option.filter_some, htext]
  rfl

theorem requested_clear (limits : Limits) (calls : List Call) :
    requested limits (calls ++ [.clear]) = [] := by
  rw [requested, List.rtakeWhile_concat_neg _ _ _ (by decide)]
  rfl

/-- A call for nothing, or for what is no format, does not count. -/
theorem requested_of_none (hcall : call ≠ .clear) (h : call.accepted? limits = none)
    (calls : List Call) : requested limits (calls ++ [call]) = requested limits calls := by
  rw [requested, List.rtakeWhile_concat_pos _ _ _ (by simpa using hcall), List.filterMap_append,
    List.filterMap_cons_none h, List.filterMap_nil, List.append_nil]
  rfl

/-- A format that is asked for comes last, unless it was asked for before. -/
theorem requested_of_some (hcall : call ≠ .clear) (h : call.accepted? limits = some source)
    (calls : List Call) :
    requested limits (calls ++ [call]) =
      if source ∈ requested limits calls then requested limits calls
      else requested limits calls ++ [source] := by
  rw [requested, List.rtakeWhile_concat_pos _ _ _ (by simpa using hcall), List.filterMap_append,
    List.filterMap_cons_some h, List.filterMap_nil, Mapping.eraseDups_concat]
  rfl

end Call

/-! ## One call -/

namespace FormatCache

variable {limits : Limits} {cache : FormatCache} {source : String}

/-- The texts of the formats kept. -/
def sources (cache : FormatCache) : List String := cache.kept.map fun shared => shared.format.source

theorem length_sources (cache : FormatCache) : cache.sources.length = cache.size :=
  List.length_map _

theorem get?_eq_none_iff : cache.get? source = none ↔ source ∉ cache.sources := by
  simp [get?, sources]

/-- What keeping a format does to those kept. -/
theorem kept_keep (cache : FormatCache) (shared : SharedFormat) :
    (cache.keep shared).kept =
      if cache.capacity ≤ cache.size then cache.kept else cache.kept ++ [shared] :=
  apply_ite kept _ _ _

theorem mem_kept_keep {cache : FormatCache} {shared new : SharedFormat}
    (h : shared ∈ (cache.keep new).kept) : shared ∈ cache.kept ∨ shared = new := by
  rw [kept_keep] at h
  split at h
  · exact .inl h
  · exact (List.mem_append.1 h).imp_right List.mem_singleton.1

theorem capacity_keep (cache : FormatCache) (shared : SharedFormat) :
    (cache.keep shared).capacity = cache.capacity := by
  rw [keep]
  split
  · rfl
  · rfl

theorem capacity_request (cache : FormatCache) (source : String) :
    (cache.request source).2.capacity = cache.capacity := by
  rcases cache.request_cases source with ⟨_, _, heq⟩ | ⟨_, _, _, heq⟩ | ⟨_, _, _, heq⟩
  · rw [heq]
  · rw [heq]
  · rw [heq, capacity_keep]

/-- A request drops nothing. -/
theorem kept_prefix_request (cache : FormatCache) (source : String) :
    cache.kept <+: (cache.request source).2.kept := by
  rcases cache.request_cases source with ⟨_, _, heq⟩ | ⟨_, _, _, heq⟩ | ⟨_, _, _, heq⟩
  · exact heq ▸ List.prefix_rfl
  · exact heq ▸ List.prefix_rfl
  · rw [heq, kept_keep]
    split
    · exact List.prefix_rfl
    · exact List.prefix_append _ _

/-- A request for what is no format changes nothing. -/
theorem Valid.request_of_error (h : cache.Valid limits) {e : FormatError}
    (htext : Format.ofText limits source = .error e) :
    cache.request source = (.error e, cache) := by
  have hanswer := (h.request source).1
  rw [htext] at hanswer
  rcases cache.request_cases source with ⟨_, _, heq⟩ | ⟨_, _, _, heq⟩ | ⟨_, _, _, heq⟩
  · rw [heq] at hanswer
    cases hanswer
  · rw [heq] at hanswer ⊢
    cases hanswer
    rfl
  · rw [heq] at hanswer
    cases hanswer

/-- A request for a format appends its text, unless that is kept already or there is no room. -/
theorem Valid.sources_request (h : cache.Valid limits) {format : Format}
    (htext : Format.ofText limits source = .ok format) :
    (cache.request source).2.sources =
      if source ∈ cache.sources ∨ cache.capacity ≤ cache.size then cache.sources
      else cache.sources ++ [source] := by
  rcases cache.request_cases source with ⟨shared, hget, heq⟩ | ⟨e, _, hrefused, heq⟩ |
    ⟨made, hget, hread, heq⟩
  · have hmem : source ∈ cache.sources := by
      obtain ⟨hkept, rfl⟩ := of_get?_eq_some hget
      exact List.mem_map_of_mem hkept
    rw [heq, if_pos (.inl hmem)]
  · rw [h.limits_eq, htext] at hrefused
    cases hrefused
  · rw [h.limits_eq, htext] at hread
    cases hread
    have hsource : format.source = source := (Format.ofText_eq_ok_iff.1 htext).2.2
    have hmem : source ∉ cache.sources := get?_eq_none_iff.1 hget
    rw [heq, sources, kept_keep]
    by_cases hfull : cache.capacity ≤ cache.size
    · rw [if_pos (Or.inr hfull)]
      exact congrArg _ (if_pos hfull)
    · rw [if_neg (not_or.2 ⟨hmem, hfull⟩), ← hsource]
      exact (congrArg _ (if_neg hfull)).trans List.map_append

end FormatCache

namespace Session

variable {limits : Limits} {capacity : Nat}

theorem after_append (limits : Limits) (capacity : Nat) (before more : List Call) :
    after limits capacity (before ++ more) = more.foldl next (after limits capacity before) :=
  List.foldl_append

/-- A call asks for a text, or drops all formats, or leaves the cache as it is. -/
theorem cache_next_cases (session : Session) (call : Call) :
    (∃ source, call.source? = some source ∧
      (session.next call).cache = (session.cache.request source).2) ∨
    (call = .clear ∧ (session.next call).cache = session.cache.clear) ∨
    (call.source? = none ∧ call ≠ .clear ∧ (session.next call).cache = session.cache) := by
  cases call with
  | format source => exact .inl ⟨source, rfl, rfl⟩
  | unpack source bytes offset => exact .inl ⟨source, rfl, rfl⟩
  | reuse call bytes offset =>
    refine .inr (.inr ⟨rfl, nofun, ?_⟩)
    rw [next, answer]
    split
    · rfl
    · rfl
  | clear => exact .inr (.inl ⟨rfl, rfl⟩)

theorem ne_clear_of_source? {call : Call} {source : String} (h : call.source? = some source) :
    call ≠ .clear := by
  rintro rfl
  cases h

/-- Calls that do not drop all formats drop none. -/
theorem kept_prefix_foldl {more : List Call} (hmore : .clear ∉ more) (session : Session) :
    session.cache.kept <+: (more.foldl next session).cache.kept := by
  induction more generalizing session with
  | nil => exact List.prefix_rfl
  | cons call more ih =>
    rw [List.mem_cons, not_or] at hmore
    obtain ⟨hcall, hmore⟩ := hmore
    refine List.IsPrefix.trans ?_ (ih hmore (session.next call))
    rcases session.cache_next_cases call with ⟨source, _, heq⟩ | ⟨rfl, _⟩ | ⟨_, _, heq⟩
    · rw [heq]
      exact session.cache.kept_prefix_request source
    · exact absurd rfl hcall
    · exact heq ▸ List.prefix_rfl

/-! ## A row of calls -/

theorem capacity_after (limits : Limits) (capacity : Nat) (calls : List Call) :
    (after limits capacity calls).cache.capacity = capacity := by
  induction calls using List.reverseRecOn with
  | nil => rfl
  | append_singleton calls call ih =>
    rw [after_concat]
    rcases (after limits capacity calls).cache_next_cases call with ⟨source, _, heq⟩ | ⟨_, heq⟩ |
      ⟨_, _, heq⟩
    · rw [heq, FormatCache.capacity_request, ih]
    · rw [heq]
      exact ih
    · rw [heq, ih]

/-- The first `n` of some texts, when one is appended that is not among them. -/
theorem take_ite_append (texts : List String) (text : String) (n : Nat) :
    (if text ∈ texts then texts else texts ++ [text]).take n =
      if text ∈ texts.take n ∨ n ≤ (texts.take n).length then texts.take n
      else texts.take n ++ [text] := by
  by_cases hroom : n ≤ texts.length
  · have hfull : n ≤ (texts.take n).length := by rw [List.length_take]; omega
    rw [if_pos (Or.inr hfull)]
    split
    · rfl
    · exact List.take_append_of_le_length hroom
  · have hall : texts.take n = texts := List.take_of_length_le (by omega)
    rw [hall]
    by_cases hmem : text ∈ texts
    · rw [if_pos hmem, if_pos (Or.inl hmem), hall]
    · rw [if_neg hmem, if_neg (not_or.2 ⟨hmem, hroom⟩)]
      exact List.take_of_length_le (by rw [List.length_append, List.length_singleton]; omega)

/-- The texts kept are the first ones of those asked for. -/
theorem sources_after (limits : Limits) (capacity : Nat) (calls : List Call) :
    (after limits capacity calls).cache.sources = (Call.requested limits calls).take capacity := by
  induction calls using List.reverseRecOn with
  | nil => exact List.take_nil.symm
  | append_singleton calls call ih =>
    have hvalid := (agrees_after limits capacity calls).cache
    have hsize := (after limits capacity calls).cache.length_sources
    rw [after_concat]
    rcases (after limits capacity calls).cache_next_cases call with ⟨source, hsource, heq⟩ |
      ⟨rfl, heq⟩ | ⟨hsource, hcall, heq⟩
    · have hcall := ne_clear_of_source? hsource
      rw [heq]
      cases htext : Format.ofText limits source with
      | error e =>
        rw [hvalid.request_of_error htext,
          Call.requested_of_none hcall (Call.accepted?_of_error hsource htext), ih]
      | ok format =>
        rw [hvalid.sources_request htext,
          Call.requested_of_some hcall (Call.accepted?_of_ok hsource htext), capacity_after,
          ← hsize, ih]
        exact (take_ite_append _ source capacity).symm
    · rw [heq, Call.requested_clear, List.take_nil]
      rfl
    · have hnone : call.accepted? limits = none := by
        rw [Call.accepted?, hsource]
        rfl
      rw [heq, Call.requested_of_none hcall hnone, ih]

theorem size_after (limits : Limits) (capacity : Nat) (calls : List Call) :
    (after limits capacity calls).cache.size =
      min capacity (Call.requested limits calls).length := by
  rw [← FormatCache.length_sources, sources_after, List.length_take]

/-- **A cache keeps the first formats that it was asked for.**

After any calls the texts kept are, in order, the first ones of the distinct formats asked for since
all were dropped, as many as the capacity allows.  So their number is the smaller one of the two
numbers, calls that do not drop all formats drop none, and a call for what is no format leaves the
whole cache as it is. -/
theorem contents_after (limits : Limits) (capacity : Nat) (calls : List Call) :
    (after limits capacity calls).cache.sources =
        (Call.requested limits calls).take capacity ∧
      (after limits capacity calls).cache.size =
        min capacity (Call.requested limits calls).length ∧
      (after limits capacity calls).cache.size ≤ capacity ∧
      (∀ more, .clear ∉ more →
        (after limits capacity calls).cache.kept <+:
          (after limits capacity (calls ++ more)).cache.kept) ∧
      ∀ call source e, call.source? = some source → Format.ofText limits source = .error e →
        (after limits capacity (calls ++ [call])).cache = (after limits capacity calls).cache := by
  have hsize := size_after limits capacity calls
  refine ⟨sources_after limits capacity calls, hsize, by omega, fun more hmore => ?_,
    fun call source e hsource htext => ?_⟩
  · rw [after_append]
    exact kept_prefix_foldl hmore _
  · rw [after_concat]
    rcases (after limits capacity calls).cache_next_cases call with ⟨asked, hasked, heq⟩ |
      ⟨rfl, _⟩ | ⟨hnone, _⟩
    · rw [hsource] at hasked
      cases hasked
      rw [heq, (agrees_after limits capacity calls).cache.request_of_error htext]
    · cases hsource
    · rw [hsource] at hnone
      cases hnone

/-- Three formats, two of which are asked for anew after a clearing, and room for one of them: the
first one is kept, and stays when bytes are to be decoded by what is no format. -/
theorem contents_after_clear :
    let calls : List Call :=
      [.format "N", .clear, .unpack "C" #[1] 0, .format "n", .unpack "C" #[2] 0]
    (after {} 1 calls).cache.sources = ["C"] ∧
      (after {} 1 (calls ++ [.unpack "[C" #[1] 0])).cache = (after {} 1 calls).cache := by
  intro calls
  have hrequested : Call.requested {} calls = ["C", "n"] := by decide +kernel
  have htext : Format.ofText {} "[C" = .error (.unterminatedGroup .array) := by decide +kernel
  obtain ⟨hsources, _, _, _, hrefused⟩ := contents_after {} 1 calls
  exact ⟨by rw [hsources, hrequested]; rfl, hrefused _ _ _ rfl htext⟩

end Session

end BinaryLayout
