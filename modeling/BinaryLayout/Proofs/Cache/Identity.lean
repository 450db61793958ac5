import BinaryLayout.Proofs.Cache.Contents

/-!
# When a cache hands out the same format twice

Two formats of one text are equal, whether the text was read once or twice.  Serial numbers tell
these cases apart: a number is given to a format when it is made and never again.

There are three groups.

* Numbers.  `Session.Knows` are the formats that a session keeps or has handed out, and
  `Session.Numbered` is the invariant that numbers tell them apart and are all below the next one.
* Staying in the cache.  What is kept stays until all formats are dropped, and then only formats
  with greater numbers can come (`Session.mem_kept_of_serial_lt`).
* Two requests.  `Session.same_serial_iff` says when both are answered with one format.
-/

namespace BinaryLayout

/-! ## Numbers -/

namespace FormatCache

variable {cache : FormatCache} {source : String}

/-- A request deals with formats that are kept, or makes one format with the next number. -/
theorem request_numbers (cache : FormatCache) (source : String) :
    ((cache.request source).2.made = cache.made ∧
      ∀ shared, shared ∈ (cache.request source).2.kept ∨ (cache.request source).1 = .ok shared →
        shared ∈ cache.kept) ∨
    ∃ new : SharedFormat, new.serial = cache.made ∧
      (cache.request source).2.made = cache.made + 1 ∧
      ∀ shared, shared ∈ (cache.request source).2.kept ∨ (cache.request source).1 = .ok shared →
        shared ∈ cache.kept ∨ shared = new := by
  rcases cache.request_cases source with ⟨found, hget, heq⟩ | ⟨e, _, _, heq⟩ | ⟨format, _, _, heq⟩
  · refine .inl ⟨by rw [heq], fun shared h => ?_⟩
    rw [heq] at h
    rcases h with hkept | hanswer
    · exact hkept
    · cases hanswer
      exact (of_get?_eq_some hget).1
  · refine .inl ⟨by rw [heq], fun shared h => ?_⟩
    rw [heq] at h
    rcases h with hkept | hanswer
    · exact hkept
    · cases hanswer
  · refine .inr ⟨⟨cache.made, format⟩, rfl, ?_, fun shared h => ?_⟩
    · rw [heq, keep]
      split
      · rfl
      · rfl
    · rw [heq] at h
      rcases h with hkept | hanswer
      · have hcases := mem_kept_keep hkept
        exact hcases
      · cases hanswer
        exact .inr rfl

/-- What a request is answered with is kept under its text, or has the next number. -/
theorem get?_or_serial_of_request {shared : SharedFormat}
    (h : (cache.request source).1 = .ok shared) :
    cache.get? source = some shared ∨
      cache.get? source = none ∧ shared.serial = cache.made := by
  rcases cache.request_cases source with ⟨found, hget, heq⟩ | ⟨e, _, _, heq⟩ |
    ⟨format, hget, _, heq⟩
  · rw [heq] at h
    cases h
    exact .inl hget
  · rw [heq] at h
    cases h
  · rw [heq] at h
    cases h
    exact .inr ⟨hget, rfl⟩

theorem request_of_get? {shared : SharedFormat} (h : cache.get? source = some shared) :
    (cache.request source).1 = .ok shared := by
  rw [request, h]

/-- What is found under a text after a request for it is what the request was answered with. -/
theorem get?_request {shared found : SharedFormat} (h : (cache.request source).1 = .ok shared)
    (hfound : (cache.request source).2.get? source = some found) : found = shared := by
  rcases cache.request_cases source with ⟨old, hget, heq⟩ | ⟨e, _, _, heq⟩ |
    ⟨format, hget, _, heq⟩
  · rw [heq] at h hfound
    cases h
    exact Option.some.inj (hfound.symm.trans hget)
  · rw [heq] at h
    cases h
  · rw [heq] at h hfound
    cases h
    obtain ⟨hkept, hsource⟩ := of_get?_eq_some hfound
    have hold : found ∉ cache.kept := fun hmem =>
      get?_eq_none_iff.1 hget (hsource ▸ List.mem_map_of_mem hmem)
    exact (mem_kept_keep hkept).resolve_left hold

end FormatCache

namespace Session

variable {session : Session}

/-- A call for a text as a format is answered with this one. -/
def Gives (session : Session) (source : String) (shared : SharedFormat) : Prop :=
  (session.answer (.format source)).1 = .format (.ok shared)

theorem gives_iff {source : String} {shared : SharedFormat} :
    session.Gives source shared ↔ (session.cache.request source).1 = .ok shared :=
  ⟨fun h => Answer.format.inj h, fun h => congrArg Answer.format h⟩

/-- The formats that are kept, and those that were handed out. -/
def Knows (session : Session) (shared : SharedFormat) : Prop :=
  shared ∈ session.cache.kept ∨ ∃ answer ∈ session.answers, answer.format? = some shared

/-- The numbers of the formats tell them apart, and the next number is greater than all of them. -/
structure Numbered (session : Session) : Prop where
  serial_lt : ∀ shared, session.Knows shared → shared.serial < session.cache.made
  eq_of_serial_eq : ∀ shared other, session.Knows shared → session.Knows other →
    shared.serial = other.serial → shared = other

/-- Only a call for a format hands one out. -/
theorem request_of_format?_answer {call : Call} {shared : SharedFormat}
    (h : (session.answer call).1.format? = some shared) :
    ∃ source, call.source? = some source ∧ (session.cache.request source).1 = .ok shared := by
  cases call with
  | format source =>
    refine ⟨source, rfl, ?_⟩
    show (session.cache.request source).1 = _
    have hanswer : (Answer.format (session.cache.request source).1).format? = some shared := h
    cases hrequest : (session.cache.request source).1 with
    | error e =>
      rw [hrequest] at hanswer
      cases hanswer
    | ok made =>
      rw [hrequest] at hanswer
      cases hanswer
      rfl
  | unpack source bytes offset => cases h
  | reuse call bytes offset =>
    rw [answer] at h
    split at h
    · cases h
    · cases h
  | clear => cases h

/-- A format that a session knows after a call was known before, or is kept now, or is the answer to
a request that the call makes. -/
theorem Knows.of_next {call : Call} {shared : SharedFormat} (h : (session.next call).Knows shared) :
    session.Knows shared ∨ shared ∈ (session.next call).cache.kept ∨
      ∃ source, call.source? = some source ∧ (session.cache.request source).1 = .ok shared := by
  rcases h with hkept | ⟨answer, hmem, hgiven⟩
  · exact .inr (.inl hkept)
  · rcases List.mem_append.1 hmem with hold | hlast
    · exact .inl (.inr ⟨answer, hold, hgiven⟩)
    · rw [List.mem_singleton.1 hlast] at hgiven
      exact .inr (.inr (request_of_format?_answer hgiven))

/-- After a call no format is new, or one is, with the next number. -/
theorem knows_next_cases (session : Session) (call : Call) :
    ((session.next call).cache.made = session.cache.made ∧
      ∀ shared, (session.next call).Knows shared → session.Knows shared) ∨
    ∃ new : SharedFormat, new.serial = session.cache.made ∧
      (session.next call).cache.made = session.cache.made + 1 ∧
      ∀ shared, (session.next call).Knows shared → session.Knows shared ∨ shared = new := by
  rcases session.cache_next_cases call with ⟨source, hsource, heq⟩ | ⟨rfl, heq⟩ | ⟨hnone, _, heq⟩
  · have hrequest {shared : SharedFormat} (h : (session.next call).Knows shared) :
        session.Knows shared ∨ shared ∈ (session.cache.request source).2.kept ∨
          (session.cache.request source).1 = .ok shared := by
      rcases h.of_next with hold | hkept | ⟨asked, hasked, hanswer⟩
      · exact .inl hold
      · exact .inr (.inl (heq ▸ hkept))
      · rw [hsource] at hasked
        cases hasked
        exact .inr (.inr hanswer)
    rw [heq]
    rcases session.cache.request_numbers source with ⟨hmade, hold⟩ | ⟨new, hserial, hmade, hnew⟩
    · refine .inl ⟨hmade, fun shared h => ?_⟩
      rcases hrequest h with hknown | hshared
      · exact hknown
      · exact .inl (hold shared hshared)
    · refine .inr ⟨new, hserial, hmade, fun shared h => ?_⟩
      rcases hrequest h with hknown | hshared
      · exact .inl hknown
      · rcases hnew shared hshared with hkept | heq
        · exact .inl (.inl hkept)
        · exact .inr heq
  · refine .inl ⟨by rw [heq]; rfl, fun shared h => ?_⟩
    rcases h.of_next with hold | hkept | ⟨_, hasked, _⟩
    · exact hold
    · rw [heq] at hkept
      cases hkept
    · cases hasked
  · refine .inl ⟨by rw [heq], fun shared h => ?_⟩
    rcases h.of_next with hold | hkept | ⟨_, hasked, _⟩
    · exact hold
    · exact .inl (heq ▸ hkept)
    · rw [hnone] at hasked
      cases hasked

theorem Numbered.step (h : session.Numbered) (call : Call) : (session.next call).Numbered := by
  rcases session.knows_next_cases call with ⟨hmade, hold⟩ | ⟨new, hserial, hmade, hnew⟩
  · refine ⟨fun shared hknows => ?_, fun shared other hknows hother => ?_⟩
    · rw [hmade]
      exact h.serial_lt shared (hold shared hknows)
    · exact h.eq_of_serial_eq shared other (hold shared hknows) (hold other hother)
  · refine ⟨fun shared hknows => ?_, fun shared other hknows hother heq => ?_⟩
    · rcases hnew shared hknows with hold | rfl
      · have := h.serial_lt shared hold
        omega
      · omega
    · rcases hnew shared hknows with hold | rfl <;> rcases hnew other hother with hold' | rfl
      · exact h.eq_of_serial_eq shared other hold hold' heq
      · have := h.serial_lt shared hold
        omega
      · have := h.serial_lt other hold'
        omega
      · rfl

theorem numbered_foldl (h : session.Numbered) (more : List Call) :
    (more.foldl next session).Numbered := by
  induction more generalizing session with
  | nil => exact h
  | cons call more ih => exact ih (h.step call)

theorem numbered_after (limits : Limits) (capacity : Nat) (calls : List Call) :
    (after limits capacity calls).Numbered := by
  refine numbered_foldl ⟨fun shared h => ?_, fun shared other h => ?_⟩ calls
  all_goals
    rcases h with hkept | ⟨answer, hmem, _⟩
    · cases hkept
    · cases hmem

/-! ## Staying in the cache -/

theorem made_le_made_next (session : Session) (call : Call) :
    session.cache.made ≤ (session.next call).cache.made := by
  rcases session.knows_next_cases call with ⟨hmade, _⟩ | ⟨_, _, hmade, _⟩ <;> omega

/-- What is kept after some calls and has a number from before them was kept before them, and all
formats were not dropped since. -/
theorem mem_kept_of_serial_lt {more : List Call} {shared : SharedFormat}
    (hkept : shared ∈ (more.foldl next session).cache.kept)
    (hserial : shared.serial < session.cache.made) :
    shared ∈ session.cache.kept ∧ .clear ∉ more := by
  induction more generalizing session with
  | nil => exact ⟨hkept, List.not_mem_nil⟩
  | cons call more ih =>
    obtain ⟨hnext, hmore⟩ :=
      ih hkept (Nat.lt_of_lt_of_le hserial (session.made_le_made_next call))
    rcases session.cache_next_cases call with ⟨source, hsource, heq⟩ | ⟨rfl, heq⟩ | ⟨_, hcall, heq⟩
    · have hclear : Call.clear ≠ call := (ne_clear_of_source? hsource).symm
      refine ⟨?_, by simp [hclear, hmore]⟩
      rw [heq] at hnext
      rcases session.cache.request_numbers source with ⟨_, hold⟩ | ⟨new, hnumber, _, hnew⟩
      · exact hold shared (.inl hnext)
      · rcases hnew shared (.inl hnext) with hold | rfl
        · exact hold
        · omega
    · rw [heq] at hnext
      cases hnext
    · exact ⟨heq ▸ hnext, by simp [hcall.symm, hmore]⟩

/-- What is found under a text stays there until all formats are dropped. -/
theorem get?_foldl {more : List Call} (hmore : .clear ∉ more) {source : String}
    {shared : SharedFormat} (h : session.cache.get? source = some shared) :
    (more.foldl next session).cache.get? source = some shared :=
  (kept_prefix_foldl hmore session).find?_eq_some h

/-! ## Two requests -/

/-- A format that is given has been handed out. -/
theorem Gives.handedOut {source : String} {shared : SharedFormat}
    (h : session.Gives source shared) :
    ∃ answer ∈ (session.next (.format source)).answers, answer.format? = some shared := by
  refine ⟨.format (.ok shared), ?_, rfl⟩
  rw [next, h]
  exact List.mem_append_right _ (List.mem_singleton_self _)

/-- What has been handed out is not taken back. -/
theorem handedOut_foldl {shared : SharedFormat}
    (h : ∃ answer ∈ session.answers, answer.format? = some shared) (more : List Call) :
    ∃ answer ∈ (more.foldl next session).answers, answer.format? = some shared := by
  induction more generalizing session with
  | nil => exact h
  | cons call more ih =>
    obtain ⟨answer, hmem, hgiven⟩ := h
    exact ih ⟨answer, List.mem_append_left _ hmem, hgiven⟩

/-- A format that is given is a format for the text. -/
theorem Gives.source_eq {limits : Limits} (hvalid : session.cache.Valid limits) {source : String}
    {shared : SharedFormat} (h : session.Gives source shared) : shared.format.source = source := by
  have hanswer := (hvalid.request source).1
  rw [gives_iff.1 h] at hanswer
  exact (Format.ofText_eq_ok_iff.1 hanswer.symm).2.2

/-- A format that is given and is not kept under its text is new. -/
theorem Gives.get?_or_serial {source : String} {shared : SharedFormat}
    (h : session.Gives source shared) :
    session.cache.get? source = some shared ∨
      session.cache.get? source = none ∧ shared.serial = session.cache.made :=
  FormatCache.get?_or_serial_of_request (gives_iff.1 h)

theorem gives_of_get? {source : String} {shared : SharedFormat}
    (h : session.cache.get? source = some shared) : session.Gives source shared :=
  gives_iff.2 (FormatCache.request_of_get? h)

/-- A full cache has no room for more until all formats are dropped. -/
theorem kept_of_full {limits : Limits} {capacity : Nat} {before more : List Call}
    (hfull : capacity ≤ (after limits capacity before).cache.size) (hmore : .clear ∉ more) :
    (after limits capacity (before ++ more)).cache.kept =
      (after limits capacity before).cache.kept := by
  have hsize := size_after limits capacity (before ++ more)
  have hle : (after limits capacity (before ++ more)).cache.size ≤
      (after limits capacity before).cache.size := by omega
  rw [after_append] at hle ⊢
  exact ((kept_prefix_foldl hmore _).eq_of_length_le hle).symm

section

variable {limits : Limits} {between : List Call} {source other : String}
  {shared found : SharedFormat}

/-- The formats given at two requests are one and the same if they have one number. -/
theorem Numbered.eq_of_gives (h : session.Numbered) (hshared : session.Gives source shared)
    (hfound : (between.foldl next (session.next (.format source))).Gives other found)
    (heq : shared.serial = found.serial) : shared = found := by
  have hnumbered := numbered_foldl (h.step (.format source)) between
  have hlater := handedOut_foldl (handedOut_foldl hshared.handedOut between) [.format other]
  exact (hnumbered.step (.format other)).eq_of_serial_eq _ _ (.inr hlater)
    (.inr hfound.handedOut) heq

/-- If they are one and the same, the format was kept from the first request on. -/
theorem kept_of_gives_same (hvalid : session.cache.Valid limits) (h : session.Numbered)
    (hshared : session.Gives source shared)
    (hfound : (between.foldl next (session.next (.format source))).Gives other shared) :
    source = other ∧ .clear ∉ between ∧
      source ∈ (session.next (.format source)).cache.sources := by
  have hstep := h.step (.format source)
  rcases hfound.get?_or_serial with hget | ⟨_, hserial⟩
  · obtain ⟨hkept, hother⟩ := FormatCache.of_get?_eq_some hget
    have hless := hstep.serial_lt shared (.inr hshared.handedOut)
    obtain ⟨hfirst, hclear⟩ := mem_kept_of_serial_lt hkept hless
    have hsource := hshared.source_eq hvalid
    exact ⟨hsource.symm.trans hother, hclear, List.mem_map.2 ⟨shared, hfirst, hsource⟩⟩
  · have hlater := handedOut_foldl hshared.handedOut between
    have := (numbered_foldl hstep between).serial_lt shared (.inr hlater)
    omega

/-- If the format was kept from the first request on, it is given again. -/
theorem eq_of_kept (hshared : session.Gives source shared) (hclear : .clear ∉ between)
    (hkept : source ∈ (session.next (.format source)).cache.sources)
    (hfound : (between.foldl next (session.next (.format source))).Gives source found) :
    shared = found := by
  obtain ⟨kept, hget⟩ : ∃ kept, (session.next (.format source)).cache.get? source = some kept := by
    rw [← Option.ne_none_iff_exists', ne_eq, FormatCache.get?_eq_none_iff, not_not]
    exact hkept
  have hfirst : kept = shared := FormatCache.get?_request (gives_iff.1 hshared) hget
  have hlater := gives_of_get? (get?_foldl hclear hget)
  rw [← hfirst]
  exact Except.ok.inj ((gives_iff.1 hlater).symm.trans (gives_iff.1 hfound))

end

/-- **Two requests are answered with one format exactly if it stayed in the cache.**

Whatever calls came before, and whatever came between: the formats given for two texts have one
number, and then are one and the same, exactly if the texts are equal, the text is kept right after
the first request, and all formats were not dropped in between.

So a text that has not been asked for when the cache is full gets a new format at every request
until all formats are dropped, and a format that a call leaves in the cache, be it only to decode
bytes, is what a request for its text is answered with until then. -/
theorem same_serial_iff (limits : Limits) (capacity : Nat) (before : List Call) :
    (∀ between source other shared found,
      (after limits capacity before).Gives source shared →
      (after limits capacity (before ++ .format source :: between)).Gives other found →
        (shared.serial = found.serial ↔
          source = other ∧ .clear ∉ between ∧
            source ∈ (after limits capacity (before ++ [.format source])).cache.sources) ∧
        (shared.serial = found.serial → shared = found)) ∧
      (∀ more source shared,
        source ∉ Call.requested limits before →
        capacity ≤ (after limits capacity before).cache.size → .clear ∉ more →
        (after limits capacity (before ++ more)).Gives source shared →
          ∀ earlier, (after limits capacity (before ++ more)).Knows earlier →
            earlier.serial ≠ shared.serial) ∧
      ∀ more source shared,
        (after limits capacity before).cache.get? source = some shared → .clear ∉ more →
          (after limits capacity (before ++ more)).Gives source shared := by
  have hvalid := (agrees_after limits capacity before).cache
  have hnumbered := numbered_after limits capacity before
  refine ⟨fun between source other shared found hshared hfound => ?_,
    fun more source shared hnew hfull hmore hgives earlier hearlier => ?_,
    fun more source shared hget hmore => ?_⟩
  · rw [after_append, List.foldl_cons] at hfound
    rw [after_concat]
    refine ⟨⟨fun heq => ?_, fun ⟨hsource, hclear, hkept⟩ => ?_⟩,
      hnumbered.eq_of_gives hshared hfound⟩
    · cases hnumbered.eq_of_gives hshared hfound heq
      exact kept_of_gives_same hvalid hnumbered hshared hfound
    · cases hsource
      rw [eq_of_kept hshared hclear hkept hfound]
  · have hmissing : (after limits capacity (before ++ more)).cache.get? source = none := by
      rw [FormatCache.get?_eq_none_iff, FormatCache.sources, kept_of_full hfull hmore]
      intro hmem
      have hkept : source ∈ (after limits capacity before).cache.sources := hmem
      rw [sources_after] at hkept
      exact hnew (List.mem_of_mem_take hkept)
    rcases hgives.get?_or_serial with hget | ⟨_, hserial⟩
    · rw [hmissing] at hget
      cases hget
    · have := (numbered_after limits capacity (before ++ more)).serial_lt earlier hearlier
      omega
  · rw [after_append]
    exact gives_of_get? (get?_foldl hmore hget)

/-- There is room for one format, and bytes are decoded by it first.  Two requests for it are
answered with the format that this left in the cache, and a second request for another text is
answered with a format that the session does not know. -/
theorem same_serial_in_full_cache :
    let before : List Call := [.unpack "C" #[1] 0]
    ∃ byte word : SharedFormat,
      (after {} 1 before).cache.get? "C" = some byte ∧
      (∀ found, (after {} 1 (before ++ .format "C" :: [.format "n"])).Gives "C" found →
        byte.serial = found.serial) ∧
      (after {} 1 (before ++ [.format "n", .format "C"])).Gives "n" word ∧
      ∀ earlier, (after {} 1 (before ++ [.format "n", .format "C"])).Knows earlier →
        earlier.serial ≠ word.serial := by
  intro before
  obtain ⟨hsame, hfresh, hkept⟩ := same_serial_iff {} 1 before
  let byte : SharedFormat := ⟨0, "C", .field none (.number (.byte .unsigned)) 1 .done⟩
  let word : SharedFormat := ⟨2, "n", .field none (.number (.word .unsigned .two .big)) 1 .done⟩
  have hget : (after {} 1 before).cache.get? "C" = some byte := by decide +kernel
  have hstays : "C" ∈ (after {} 1 (before ++ [.format "C"])).cache.sources := by decide +kernel
  have hnew : "n" ∉ Call.requested {} before := by decide +kernel
  have hfull : 1 ≤ (after {} 1 before).cache.size := by decide +kernel
  have hword : (after {} 1 (before ++ [.format "n", .format "C"])).Gives "n" word :=
    gives_iff.2 (by decide +kernel)
  have hbyte : (after {} 1 before).Gives "C" byte := by
    simpa using hkept [] "C" byte hget (by decide)
  refine ⟨byte, word, hget, fun found hfound => ?_, hword,
    hfresh _ _ _ hnew hfull (by decide) hword⟩
  exact (hsame _ _ _ _ _ hbyte hfound).1.2 ⟨rfl, by decide, hstays⟩

end Session

end BinaryLayout
