import BinaryLayout.Glob.Expand
import BinaryLayout.Proofs.Files.Tree

/-!
# Names under a path

A pattern is followed name by name: each name that is found is put under the path that has led so
far.  In the working directory it stands alone, and otherwise a slash is put between them unless the
path ends in one.

There are three groups.

* Parts.  `split_append_slash` takes a text apart at a slash, and `parts_join` says what the parts
  of a path become when a name is put under it.
* The working directory.  `isHere_iff` says which paths stand for it by leading nowhere.
* Where a name under a path leads.  `Reaches` is a path that leads to a location and leaves room for
  some bytes more, and `Reaches.under` is one step of it.
-/

namespace BinaryLayout

namespace Path

/-! ## Parts -/

/-- A part that leads into a directory. -/
structure IsName (name : String) : Prop where
  notIdle : isIdle name = false
  notUp : name ≠ ".."

theorem split_ne_nil (text : List Char) : split text ≠ [] := by
  have hne := parts_ne_nil (String.ofList text)
  rwa [parts, String.toList_ofList, ne_eq, List.map_eq_nil_iff] at hne

theorem split_cons_of_ne {c : Char} (hc : c ≠ '/') (text : List Char) :
    ∃ part parts, split text = part :: parts ∧ split (c :: text) = (c :: part) :: parts := by
  cases hsplit : split text with
  | nil => exact absurd hsplit (split_ne_nil text)
  | cons part parts =>
    refine ⟨part, parts, rfl, ?_⟩
    rw [split, if_neg hc, hsplit]

theorem split_of_notMem {text : List Char} (h : '/' ∉ text) : split text = [text] := by
  induction text with
  | nil => rfl
  | cons c text ih =>
    simp only [List.mem_cons, not_or] at h
    rw [split, if_neg (Ne.symm h.1), ih h.2]

/-- A slash ends a part and begins one. -/
theorem split_append_slash (text more : List Char) :
    split (text ++ '/' :: more) = split text ++ split more := by
  induction text with
  | nil => rfl
  | cons c text ih =>
    by_cases hc : c = '/'
    · subst hc
      show [] :: split (text ++ '/' :: more) = _
      rw [ih]
      rfl
    · obtain ⟨part, parts, htext, hcons⟩ := split_cons_of_ne hc text
      rw [List.cons_append, split, if_neg hc, ih, hcons, htext]
      rfl

/-- There is no slash in a part, and all its characters are those of the text. -/
theorem of_mem_split {text part : List Char} (h : part ∈ split text) :
    '/' ∉ part ∧ ∀ c ∈ part, c ∈ text := by
  induction text generalizing part with
  | nil =>
    rw [List.mem_singleton.1 h]
    exact ⟨List.not_mem_nil, nofun⟩
  | cons d text ih =>
    by_cases hd : d = '/'
    · subst hd
      rcases List.mem_cons.1 h with rfl | h
      · exact ⟨List.not_mem_nil, nofun⟩
      · exact ⟨(ih h).1, fun c hc => List.mem_cons_of_mem _ ((ih h).2 c hc)⟩
    · obtain ⟨first, parts, htext, hcons⟩ := split_cons_of_ne hd text
      rw [hcons] at h
      rw [htext] at ih
      rcases List.mem_cons.1 h with rfl | h
      · obtain ⟨hslash, hmem⟩ := ih List.mem_cons_self
        refine ⟨?_, fun c hc => ?_⟩
        · simp only [List.mem_cons, not_or]
          exact ⟨Ne.symm hd, hslash⟩
        · rcases List.mem_cons.1 hc with rfl | hc
          · exact List.mem_cons_self
          · exact List.mem_cons_of_mem _ (hmem c hc)
      · obtain ⟨hslash, hmem⟩ := ih (List.mem_cons_of_mem _ h)
        exact ⟨hslash, fun c hc => List.mem_cons_of_mem _ (hmem c hc)⟩

/-- A name that is put under a path becomes its last part. A slash at the end of the path is no
part more. -/
theorem parts_join {path name : String} (hpath : path ≠ "") (hname : '/' ∉ name.toList) :
    ∃ front, parts (join path name) = front ++ [name] ∧
      (parts path = front ∨ parts path = front ++ [""]) := by
  have hlast : (split name.toList).map String.ofList = [name] := by
    rw [split_of_notMem hname, List.map_singleton, String.ofList_toList]
  have hempty : path.isEmpty = false := String.isEmpty_eq_false_iff.2 hpath
  by_cases hslash : path.toList.getLast? = some '/'
  · obtain ⟨front, hfront⟩ := List.getLast?_eq_some_iff.1 hslash
    refine ⟨(split front).map String.ofList, ?_, .inr ?_⟩
    · rw [join, if_pos (by simp [hslash]), parts, String.toList_append, hfront, List.append_assoc,
        List.singleton_append, split_append_slash, List.map_append, hlast]
    · rw [parts, hfront, split_append_slash, List.map_append]
      rfl
  · refine ⟨parts path, ?_, .inl rfl⟩
    rw [join, if_neg (by simp [hempty, hslash]), parts, String.toList_append, String.toList_append,
      List.append_assoc]
    show (split (path.toList ++ '/' :: name.toList)).map String.ofList = _
    rw [split_append_slash, List.map_append, hlast]
    rfl

theorem head?_join {path : String} (hpath : path ≠ "") (name : String) :
    (join path name).toList.head? = path.toList.head? := by
  have hlist : path.toList ≠ [] := by
    intro hnil
    exact hpath (String.toList_eq_nil_iff.1 hnil)
  rw [join]
  split <;> simp [List.head?_append, List.head?_eq_some_head hlist]

/-! ## The working directory -/

theorem isAbsolute_iff {path : String} : isAbsolute path = true ↔ path.toList.head? = some '/' := by
  rw [isAbsolute, anchor]
  split
  · next h => simp [h]
  · next h => simp [h]
  · next h => simp [h]
  · next h _ _ =>
    refine iff_of_false (by simp) fun hhead => ?_
    obtain ⟨rest, hrest⟩ := List.head?_eq_some_iff.1 hhead
    exact h rest hrest

theorem isIdle_iff {part : String} : isIdle part = true ↔ part = "" ∨ part = "." := by
  simp [isIdle]

/-- A path stands for the working directory if it begins with a dot and leads nowhere. -/
theorem isHere_iff {path : String} :
    isHere path = true ↔
      path.toList.head? = some '.' ∧ ∀ part ∈ parts path, isIdle part = true := by
  rw [isHere, anchor, parts]
  split
  · next h => simp [h]
  · next h =>
    rw [h]
    decide
  · next rest h =>
    have hdot : split ('.' :: '/' :: rest) = ['.'] :: split rest := split_append_slash ['.'] rest
    have hslash : split ('/' :: rest) = [] :: split rest := rfl
    rw [h, hdot, hslash]
    simp [isIdle]
  · next hslash hdot hboth =>
    refine iff_of_false (by simp) ?_
    rintro ⟨hhead, hidle⟩
    obtain ⟨text, htext⟩ := List.head?_eq_some_iff.1 hhead
    cases text with
    | nil => exact hdot htext
    | cons c rest =>
      have hc : c ≠ '/' := by
        rintro rfl
        exact hboth rest htext
      obtain ⟨part, parts, hrest, hcons⟩ := split_cons_of_ne hc rest
      obtain ⟨other, others, hother, hfirst⟩ :=
        split_cons_of_ne (show '.' ≠ '/' by decide) (c :: rest)
      rw [hcons] at hother
      cases hother
      rw [htext, hfirst] at hidle
      have hbad := hidle (String.ofList ('.' :: c :: part)) List.mem_cons_self
      rcases isIdle_iff.1 hbad with h | h
      · exact absurd (congrArg String.toList h) (by simp)
      · exact absurd (congrArg String.toList h) (by simp)

/-- A single name stands for the working directory only if it is the dot. -/
theorem eq_dot_of_isHere {name : String} (hname : '/' ∉ name.toList) (h : isHere name = true) :
    name = "." := by
  obtain ⟨hhead, hidle⟩ := isHere_iff.1 h
  rw [parts, split_of_notMem hname, List.map_singleton, String.ofList_toList] at hidle
  rcases isIdle_iff.1 (hidle name List.mem_cons_self) with rfl | rfl
  · cases hhead
  · rfl

/-- What stands under any other path is not the working directory. -/
theorem isHere_join {path name : String} (hpath : path ≠ "") (hname : '/' ∉ name.toList)
    (h : isHere path = false) : isHere (join path name) = false := by
  refine Bool.eq_false_iff.2 fun hjoin => ?_
  obtain ⟨hhead, hidle⟩ := isHere_iff.1 hjoin
  obtain ⟨front, hjoined, hparts⟩ := parts_join hpath hname
  rw [head?_join hpath] at hhead
  rw [hjoined] at hidle
  have hfront (part : String) (hpart : part ∈ front) : isIdle part = true :=
    hidle part (List.mem_append_left _ hpart)
  have hhere : isHere path = true := by
    refine isHere_iff.2 ⟨hhead, fun part hpart => ?_⟩
    rcases hparts with hparts | hparts
    · exact hfront part (hparts ▸ hpart)
    · rw [hparts] at hpart
      rcases List.mem_append.1 hpart with hpart | hpart
      · exact hfront part hpart
      · rw [List.mem_singleton.1 hpart]
        rfl
  rw [h] at hhere
  cases hhere

/-- Only a dot stays in the working directory. -/
theorem of_isHere_under {path name : String} (hpath : path ≠ "") (hname : '/' ∉ name.toList)
    (h : isHere (Glob.under path name) = true) : isHere path = true ∧ name = "." := by
  by_cases hhere : isHere path = true
  · rw [Glob.under, if_pos hhere] at h
    exact ⟨hhere, eq_dot_of_isHere hname h⟩
  · rw [Glob.under, if_neg hhere, isHere_join hpath hname (Bool.eq_false_iff.2 hhere)] at h
    cases h

/-! ## Lengths -/

/-- What a path takes up in front of a name that is put under it. -/
def frontSize (path : String) : Nat :=
  if isHere path then 0
  else if path.toList.getLast? = some '/' then path.utf8ByteSize
  else path.utf8ByteSize + 1

theorem frontSize_le (path : String) : frontSize path ≤ path.utf8ByteSize + 1 := by
  unfold frontSize
  split
  · exact Nat.zero_le _
  split <;> omega

theorem size_under_le (path name : String) :
    (Glob.under path name).utf8ByteSize ≤ frontSize path + name.utf8ByteSize := by
  have happend (front back : String) :
      (front ++ back).utf8ByteSize = front.utf8ByteSize + back.utf8ByteSize :=
    String.utf8ByteSize_append
  have hone : "/".utf8ByteSize = 1 := rfl
  unfold Glob.under frontSize join
  split
  · omega
  · by_cases hslash : path.toList.getLast? = some '/'
    · have hboth := happend path name
      rw [if_pos hslash, if_pos (by simp [hslash])]
      omega
    · have hfront := happend path "/"
      have hboth := happend (path ++ "/") name
      have hname := happend path name
      rw [if_neg hslash]
      split <;> omega

/-- The length of some parts with a slash behind each. -/
def partsSize : List String → Nat
  | [] => 0
  | part :: parts => part.utf8ByteSize + 1 + partsSize parts

theorem partsSize_append (parts more : List String) :
    partsSize (parts ++ more) = partsSize parts + partsSize more := by
  induction parts with
  | nil => exact (Nat.zero_add _).symm
  | cons part parts ih =>
    rw [List.cons_append, partsSize, partsSize, ih]
    omega

/-- The length of a path is that of its parts, but for a slash. -/
theorem partsSize_parts (path : String) : partsSize (parts path) = path.utf8ByteSize + 1 := by
  have hsplit (text : List Char) :
      partsSize ((split text).map String.ofList) = (String.ofList text).utf8ByteSize + 1 := by
    induction text with
    | nil => rfl
    | cons c text ih =>
      have hsize : (String.ofList (c :: text)).utf8ByteSize =
          c.utf8Size + (String.ofList text).utf8ByteSize := by
        rw [String.ofList_cons, String.utf8ByteSize_append, String.utf8ByteSize_singleton]
      by_cases hc : c = '/'
      · subst hc
        have hempty : (String.ofList []).utf8ByteSize = 0 := rfl
        have hslash : '/'.utf8Size = 1 := rfl
        show partsSize (String.ofList [] :: (split text).map String.ofList) = _
        rw [partsSize, ih, hsize]
        omega
      · obtain ⟨part, parts, htext, hcons⟩ := split_cons_of_ne hc text
        rw [htext, List.map_cons, partsSize] at ih
        rw [hcons, hsize, List.map_cons, partsSize, String.ofList_cons,
          String.utf8ByteSize_append, String.utf8ByteSize_singleton]
        omega
  have hpath := hsplit path.toList
  rw [String.ofList_toList] at hpath
  exact hpath

end Path

namespace Tree

variable {tree : Tree}

/-! ## Where a name under a path leads -/

/-- A name only leads down. -/
theorem Steps.of_name {place next : Location} {name : String} (h : tree.Steps place name next)
    (hname : Path.IsName name) :
    next = place ++ [name] ∧ ∃ entry, tree.find? next = some entry := by
  cases h with
  | stay _ idle =>
    rw [hname.notIdle] at idle
    cases idle
  | up _ => exact absurd rfl hname.notUp
  | @down _ entry _ _ _ _ found => exact ⟨rfl, entry, found⟩

theorem Steps.directory {place next : Location} {name : String} (h : tree.Steps place name next) :
    tree.find? place = some .directory := by
  cases h <;> assumption

theorem Steps.of_idle {place next : Location} {part : String} (h : tree.Steps place part next)
    (hpart : Path.isIdle part = true) : next = place := by
  cases h with
  | stay => rfl
  | up _ => exact absurd hpart (by decide)
  | down _ idle _ _ _ =>
    rw [hpart] at idle
    cases idle

theorem follow_of_idle {parts : List String} (h : ∀ part ∈ parts, Path.isIdle part = true)
    {place last : Location} (hfollow : tree.follow place parts = .ok last) : last = place := by
  induction parts with
  | nil =>
    cases hfollow
    rfl
  | cons part rest ih =>
    obtain ⟨next, hstep, hrest⟩ := follow_cons_eq_ok.1 hfollow
    rw [hstep.of_idle (h part List.mem_cons_self)] at hrest
    exact ih (fun other hother => h other (List.mem_cons_of_mem _ hother)) hrest

theorem start_eq_ok {path : String} (hpath : path ≠ "") (hsize : path.utf8ByteSize ≤ longestPath) :
    tree.start path =
      .ok (if Path.isAbsolute path then [] else tree.here, Path.parts path) := by
  rw [start, if_neg (by simpa using hpath), if_neg (by omega)]

theorem of_locate {path : String} {place : Location} (h : tree.locate path = .ok place) :
    path ≠ "" ∧ path.utf8ByteSize ≤ longestPath ∧
      tree.follow (if Path.isAbsolute path then [] else tree.here) (Path.parts path) =
        .ok place := by
  obtain ⟨origin, parts, hstart, hfollow⟩ := locate_eq_ok.1 h
  rw [start] at hstart
  split at hstart
  · cases hstart
  · next hempty =>
    split at hstart
    · cases hstart
    · next hsize =>
      cases hstart
      exact ⟨by simpa using hempty, by omega, hfollow⟩

/-- A path that leads nowhere stays in the working directory. -/
theorem locate_of_isHere {path : String} {place : Location} (h : tree.locate path = .ok place)
    (hhere : Path.isHere path = true) : place = tree.here := by
  obtain ⟨hhead, hidle⟩ := Path.isHere_iff.1 hhere
  obtain ⟨_, _, hfollow⟩ := of_locate h
  have habsolute : Path.isAbsolute path = false := by
    refine Bool.eq_false_iff.2 fun habsolute => ?_
    rw [Path.isAbsolute_iff, hhead] at habsolute
    cases habsolute
  rw [habsolute] at hfollow
  exact follow_of_idle hidle hfollow

/-- A path leads to a location, and `room` bytes more can be written under it. -/
structure Reaches (tree : Tree) (path : String) (place : Location) (room : Nat) : Prop where
  leads : tree.locate path = .ok place
  fits : Path.frontSize path + room ≤ longestPath + 1

/-- A name under a path leads where the name is looked up. The empty name does so only under a path
that is written before it. -/
theorem Reaches.under {path name : String} {place next : Location} {room : Nat}
    (h : tree.Reaches path place (name.utf8ByteSize + 1 + room))
    (hstep : tree.Steps place name next) (hname : '/' ∉ name.toList)
    (hempty : name = "" → Path.isHere path = false) :
    tree.Reaches (Glob.under path name) next room := by
  obtain ⟨hpath, _, hfollow⟩ := of_locate h.leads
  have hfits := h.fits
  have hsize := Path.size_under_le path name
  have hshort : (Glob.under path name).utf8ByteSize ≤ longestPath := by omega
  refine ⟨?_, ?_⟩
  · by_cases hhere : Path.isHere path = true
    · have hunder : Glob.under path name = name := if_pos hhere
      have hne : name ≠ "" := by
        intro heq
        rw [hempty heq] at hhere
        cases hhere
      have habsolute : Path.isAbsolute name = false := by
        refine Bool.eq_false_iff.2 fun habsolute => ?_
        exact hname (List.mem_of_head? (Path.isAbsolute_iff.1 habsolute))
      have hparts : Path.parts name = [name] := by
        rw [Path.parts, Path.split_of_notMem hname, List.map_singleton, String.ofList_toList]
      obtain rfl := locate_of_isHere h.leads hhere
      rw [hunder] at hshort ⊢
      refine locate_eq_ok.2 ⟨_, _, start_eq_ok hne hshort, ?_⟩
      rw [habsolute, hparts]
      exact follow_cons_eq_ok.2 ⟨next, hstep, rfl⟩
    · have hunder : Glob.under path name = Path.join path name := if_neg hhere
      obtain ⟨front, hjoined, hparts⟩ := Path.parts_join hpath hname
      have hhead := Path.head?_join hpath name
      have hne : Path.join path name ≠ "" := by
        intro heq
        rw [heq] at hhead
        exact hpath (String.toList_eq_nil_iff.1 (List.head?_eq_none_iff.1 hhead.symm))
      have habsolute : Path.isAbsolute (Path.join path name) = Path.isAbsolute path := by
        rw [Bool.eq_iff_iff, Path.isAbsolute_iff, Path.isAbsolute_iff, hhead]
      rw [hunder] at hshort ⊢
      refine locate_eq_ok.2 ⟨_, _, start_eq_ok hne hshort, ?_⟩
      rw [habsolute, hjoined]
      refine follow_append_eq_ok.2 ⟨place, ?_, follow_cons_eq_ok.2 ⟨next, hstep, rfl⟩⟩
      rcases hparts with hparts | hparts
      · rw [← hparts]
        exact hfollow
      · -- The path ends in a slash, behind which it stays where it is.
        rw [hparts] at hfollow
        obtain ⟨middle, hfront, hlast⟩ := follow_append_eq_ok.1 hfollow
        have hidle : Path.isIdle "" = true := by decide
        obtain rfl := follow_of_idle (by simpa using hidle) hlast
        exact hfront
  · have hfront := Path.frontSize_le (Glob.under path name)
    omega

/-- Names one below the other lead down to what is there. -/
theorem Reaches.foldl_under {front : List String} (hfront : front ≠ [])
    (hnames : ∀ name ∈ front, Path.IsName name ∧ '/' ∉ name.toList) {path : String}
    {place next : Location} {room : Nat} (h : tree.Reaches path place (Path.partsSize front + room))
    (hfollow : tree.follow place front = .ok next) :
    tree.Reaches (front.foldl Glob.under path) next room ∧
      Path.isHere (front.foldl Glob.under path) = false ∧ next = place ++ front ∧
        ∃ entry, tree.find? next = some entry := by
  induction front generalizing path place with
  | nil => exact absurd rfl hfront
  | cons name front ih =>
    obtain ⟨middle, hstep, hrest⟩ := follow_cons_eq_ok.1 hfollow
    obtain ⟨hname, hslash⟩ := hnames name List.mem_cons_self
    rw [Path.partsSize, Nat.add_assoc] at h
    have hpath := (of_locate h.leads).1
    have hunder := h.under hstep hslash fun hempty => absurd hname.notIdle (hempty ▸ by decide)
    have hhere : Path.isHere (Glob.under path name) = false := by
      refine Bool.eq_false_iff.2 fun hhere => ?_
      obtain ⟨_, rfl⟩ := Path.of_isHere_under hpath hslash hhere
      exact absurd hname.notIdle (by decide)
    obtain ⟨rfl, hentry⟩ := hstep.of_name hname
    by_cases hnil : front = []
    · subst hnil
      cases hrest
      rw [Path.partsSize, Nat.zero_add] at hunder
      exact ⟨hunder, hhere, rfl, hentry⟩
    · obtain ⟨hreaches, hhere, rfl, hentry⟩ :=
        ih hnil (fun other hother => hnames other (List.mem_cons_of_mem _ hother)) hunder hrest
      exact ⟨hreaches, hhere, by rw [List.append_assoc]; rfl, hentry⟩

end Tree

end BinaryLayout
