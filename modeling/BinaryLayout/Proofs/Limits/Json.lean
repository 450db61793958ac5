import BinaryLayout.Limits.Json
import BinaryLayout.Proofs.Json.Passing
import BinaryLayout.Proofs.Json.ReadBack

/-!
# Limits read from JSON

Limits are found in every object that holds them, whatever else it holds, and in a short list.  The
reader looks at two keys only and passes over the values of all others, so what it comes to depends
on the values under these two keys and not on where they stand.

There are four groups.

* Counts.  Plain digits are read as the number they stand for: no number below `2 ^ 64` is too great
  for a double, even where it has to be rounded.
* Members.  `Once` is what the values under a key do to a limit, and `exists_readMember` takes one
  member off the front of those that are left.
* Lists.  The items of a list stand for the limits in order.
* Texts.  `ofJson_object` and `ofJson_list` put white space around, and `ofJson_cases` draws the
  consequences.
-/

namespace BinaryLayout

namespace Json

/-! ## Counts -/

theorem le_ofDigitChars (digits : List Char) (n : Nat) : n ≤ Nat.ofDigitChars 10 digits n := by
  induction digits generalizing n with
  | nil => exact Nat.le_refl n
  | cons d digits ih =>
    have := ih (10 * n + (d.toNat - '0'.toNat))
    rw [Nat.ofDigitChars_cons]
    omega

namespace Numeral

/-- All digits of a number below `2 ^ 64` are leading ones. -/
theorem leading_eq {digits : List Char} {n : Nat}
    (h : Nat.ofDigitChars 10 digits n < UInt64.size) :
    leading n digits = (Nat.ofDigitChars 10 digits n, 0) := by
  induction digits generalizing n with
  | nil => rfl
  | cons d digits ih =>
    rw [Nat.ofDigitChars_cons] at h
    have hnext := Nat.lt_of_le_of_lt (le_ofDigitChars digits _) h
    rw [leading, if_pos hnext, ih h, Nat.ofDigitChars_cons]

theorem roundShift_le (n shift : Nat) : Binary64.roundShift n shift ≤ n >>> shift + 1 := by
  rw [Binary64.roundShift]
  split
  · omega
  · split <;> omega

/-- Rounding does not even double a number. -/
theorem round53_le {n : Nat} (h : n ≠ 0) : round53 n ≤ 2 * n := by
  have hround := roundShift_le n (Nat.log2 n - 52)
  have hpow : 2 ^ (Nat.log2 n - 52) ≤ n :=
    Nat.le_trans (Nat.pow_le_pow_right (by decide) (by omega)) (Nat.log2_self_le h)
  have hdiv := Nat.div_mul_le_self n (2 ^ (Nat.log2 n - 52))
  have hmul := Nat.mul_le_mul_right (2 ^ (Nat.log2 n - 52)) hround
  rw [Nat.shiftRight_eq_div_pow, Nat.add_mul] at hmul
  rw [round53, Nat.shiftLeft_eq]
  omega

/-- No number below `2 ^ 64` is too great for a double. -/
theorem isTooGreat_eq_false {digits : List Char} (h : digitsValue digits < UInt64.size) :
    isTooGreat ⟨false, digits, [], true, 0⟩ = false := by
  have hscaled : scaled ⟨false, digits, [], true, 0⟩ = (digitsValue digits, 0) := by
    rw [scaled, leading_eq h]
    rfl
  rw [isTooGreat, hscaled]
  dsimp only
  split
  · rfl
  · next hzero =>
    have hround : round53 (digitsValue digits) ≤ 2 * digitsValue digits :=
      round53_le fun h => hzero (.inl h)
    have hone : round53 (Decimal.powerOfTen (0 : Int).toNat) = 1 := by decide
    have hbound : 2 * UInt64.size ≤ 1 <<< 1024 - 1 <<< 970 := by decide +kernel
    rw [if_neg (by decide), hone, Nat.mul_one, decide_eq_false_iff_not]
    omega

end Numeral

/-- Whether digits stand for a count. -/
def Counts (digits : List Char) (n : UInt64) : Prop := IsWhole digits ∧ digitsValue digits = n.toNat

theorem Counts.isNumber {digits : List Char} {n : UInt64} (h : Counts digits n) : IsNumber digits :=
  ⟨[], digits, [], [], List.mem_cons_self, h.1, .inl rfl, .inl rfl, by simp⟩

theorem counts_toDigits (n : UInt64) : Counts (Nat.toDigits 10 n.toNat) n := by
  refine ⟨⟨⟨Nat.toDigits_ne_nil, fun _ h => isDigit_of_mem_toDigits h⟩, ?_⟩,
    Nat.ofDigitChars_ten_toDigits⟩
  intro rest h
  rw [eq_zero_of_toDigits_eq h] at h
  exact (List.cons.inj h).2.symm

/-- The digits of a count are read as this count. -/
theorem readCount_append {digits gap rest : List Char} {n : UInt64} (h : Counts digits n)
    (hgap : IsGap gap) (hrest : EndsNumber rest) :
    readCount (gap ++ (digits ++ rest)) = .ok (n, rest) := by
  obtain ⟨c, tail, hcons, hc⟩ := h.isNumber.exists_eq_cons
  have hsize : n.toNat < UInt64.size := n.toNat_lt
  have hlt : digitsValue digits < UInt64.size := h.2 ▸ hsize
  have hwrite : Numeral.write ⟨false, digits, [], true, 0⟩ = digits := by
    simp [Numeral.write, Numeral.writeFraction, Numeral.writeExponent]
  have hword : Numeral.word? ⟨false, digits, [], true, 0⟩ = some n := by
    simp [Numeral.word?, h.2, hsize]
  have hnumeral : readNumeral .incomplete (digits ++ rest) =
      .ok (⟨false, digits, [], true, 0⟩, rest) := by
    simpa only [hwrite] using Numeral.readNumeral_write h.1.regular hrest
  have hread : readNumber (digits ++ rest) = .ok (⟨false, digits, [], true, 0⟩, rest) := by
    simp [readNumber, bind, Except.bind, hnumeral, Numeral.isTooGreat_eq_false hlt]
  rw [hcons, List.cons_append] at hread
  rw [readCount, hcons, List.cons_append, dropBlank_gap hgap (isBlank_of_startsNumber hc)]
  dsimp only
  rw [if_pos hc, hread, hcons.symm]
  dsimp only
  rw [hword]

end Json

namespace Limits

open Json

/-! ## Members -/

/-- The texts of the values under a key. -/
def valuesUnder (key : String) (members : List (String × Element)) : List (List Char) :=
  (members.filter (·.1 = key)).map (·.2.value)

/-- Whether an element is a member of an object with the given key and any value. -/
structure IsMember (key : String) (element : Element) : Prop where
  front : ∃ code, Spells code key.toList ∧ Quotes code element.front
  value : IsValue element.value
  behind : IsGap element.behind

/-- What the values under a key make of a limit: without any it stays, and one of them sets it. -/
def Once (before : Option UInt64) (values : List (List Char)) (after : Option UInt64) : Prop :=
  values = [] ∧ after = before ∨
    before = none ∧ ∃ digits n, values = [digits] ∧ Counts digits n ∧ after = some n

/-- Whether the members complete what was found before. -/
structure Found.Completes (found : Found) (members : List (String × Element)) (after : Found) :
    Prop where
  depth : Once found.depth (valuesUnder depthKey members) after.depth
  values : Once found.values (valuesUnder valuesKey members) after.values

section

variable {key : String} {element : Element} {members : List (String × Element)}
  {found after : Found} {gap left rest : List Char}

theorem depthKey_ne_valuesKey : depthKey.toList ≠ valuesKey.toList := by decide +kernel

theorem valuesUnder_self (key : String) (element : Element) (members : List (String × Element)) :
    valuesUnder key ((key, element) :: members) = element.value :: valuesUnder key members := by
  simp [valuesUnder]

theorem valuesUnder_of_ne {other : String} (h : other ≠ key) (element : Element)
    (members : List (String × Element)) :
    valuesUnder key ((other, element) :: members) = valuesUnder key members := by
  simp [valuesUnder, h]

/-- A first value under a key is a count, and there are no more. -/
theorem Once.of_cons {before after : Option UInt64} {digits : List Char}
    {values : List (List Char)} (h : Once before (digits :: values) after) :
    before = none ∧ ∃ n, Counts digits n ∧ after = some n ∧ Once (some n) values after := by
  rcases h with ⟨hnil, _⟩ | ⟨hbefore, digits', n, hvalues, hn, rfl⟩
  · cases hnil
  · obtain ⟨rfl, rfl⟩ := List.cons.inj hvalues
    exact ⟨hbefore, n, hn, rfl, .inl ⟨rfl, rfl⟩⟩

theorem Once.of_nil {before after : Option UInt64} (h : Once before [] after) : after = before := by
  rcases h with ⟨_, hsame⟩ | ⟨_, _, _, hnil, _⟩
  · exact hsame
  · cases hnil

theorem Found.Completes.eq_of_nil (h : found.Completes [] after) : after = found := by
  obtain ⟨depth, values⟩ := after
  rw [Found.mk.injEq]
  exact ⟨h.depth.of_nil, h.values.of_nil⟩

theorem Found.readOnce_append {digits : List Char} {n : UInt64} (h : Counts digits n)
    (hcolon : readColon left = .ok (gap ++ (digits ++ rest))) (hgap : IsGap gap)
    (hrest : EndsNumber rest) : readOnce none left = .ok (n, rest) := by
  rw [readOnce, if_neg (by simp), hcolon]
  exact readCount_append h hgap hrest

/-- Behind its key, a member is read up to white space, and the other members complete what has been
found then. -/
theorem Found.exists_readMember (h : found.Completes ((key, element) :: members) after)
    (hvalue : IsValue element.value)
    (hcolon : readColon left = .ok (gap ++ (element.value ++ rest))) (hgap : IsGap gap)
    (hrest : EndsNumber rest) :
    ∃ next : Found, found.readMember key.toList left = .ok (next, rest) ∧
      next.Completes members after := by
  obtain ⟨hdepth, hvalues⟩ := h
  have hkeys : depthKey ≠ valuesKey := fun h => depthKey_ne_valuesKey (congrArg String.toList h)
  by_cases hd : key = depthKey
  · subst hd
    rw [valuesUnder_self] at hdepth
    rw [valuesUnder_of_ne hkeys] at hvalues
    obtain ⟨hnone, n, hn, _, honce⟩ := hdepth.of_cons
    refine ⟨{ found with depth := some n }, ?_, honce, hvalues⟩
    rw [readMember, if_pos rfl, hnone, readOnce_append hn hcolon hgap hrest]
  · have hd' : key.toList ≠ depthKey.toList := fun h => hd (String.toList_inj.1 h)
    rw [valuesUnder_of_ne hd] at hdepth
    by_cases hv : key = valuesKey
    · subst hv
      rw [valuesUnder_self] at hvalues
      obtain ⟨hnone, n, hn, _, honce⟩ := hvalues.of_cons
      refine ⟨{ found with values := some n }, ?_, hdepth, honce⟩
      rw [readMember, if_neg hd', if_pos rfl, hnone, readOnce_append hn hcolon hgap hrest]
    · have hv' : key.toList ≠ valuesKey.toList := fun h => hv (String.toList_inj.1 h)
      rw [valuesUnder_of_ne hv] at hvalues
      refine ⟨found, ?_, hdepth, hvalues⟩
      rw [readMember, if_neg hd', if_neg hv', hcolon]
      dsimp only
      rw [skipValue_append hvalue hgap hrest]

/-- The key of a member is read, in front of all members or behind another one. -/
theorem IsMember.exists_nextMember (h : IsMember key element) (text : List Char) :
    ∃ left gap, readColon left = .ok (gap ++ text) ∧ IsGap gap ∧
      nextMember true (element.front ++ text) = .ok (some key.toList, left) ∧
      ∀ space, IsGap space →
        nextMember false (space ++ ',' :: (element.front ++ text)) =
          .ok (some key.toList, left) := by
  obtain ⟨code, hcode, hquotes⟩ := h.front
  generalize element.front = front at hquotes
  obtain @⟨first, second, third, hfirst, hsecond, hthird⟩ := hquotes
  have hquote := dropBlank_gap hfirst (c := '"') rfl
  have hread := readString_append hcode (second ++ ':' :: (third ++ text))
  refine ⟨second ++ ':' :: (third ++ text), third, readColon_gap hsecond _, hthird, ?_, ?_⟩
  · simp [nextMember, hquote, hread]
  · intro space hspace
    have hcomma := dropBlank_gap hspace (c := ',') rfl
    simp [nextMember, hcomma, hquote, hread]

theorem nextMember_closing (first : Bool) (hgap : IsGap gap) (rest : List Char) :
    nextMember first (gap ++ Bracket.object.closing :: rest) = .ok (none, rest) := by
  have hclosing := dropBlank_gap hgap Bracket.object.isBlank_closing rest
  rw [nextMember, hclosing]
  rfl

theorem readMembers_eq (found : Found) (first : Bool) (text : List Char) :
    readMembers found first text =
      match nextMember first text with
      | .error e => .error e
      | .ok (none, rest) => .ok (found.limits, rest)
      | .ok (some key, rest) =>
        (found.readMember key rest).bind fun read => readMembers read.1 false read.2 := by
  conv_lhs => rw [readMembers]
  split
  · next h => rw [h]
  · next h => rw [h]
  · next h =>
    dsimp only
    rw [h]
    dsimp only
    split <;> next hm => rw [hm]; rfl

theorem readMembers_of_none {first : Bool} {text : List Char}
    (h : nextMember first text = .ok (none, rest)) :
    readMembers found first text = .ok (found.limits, rest) := by
  rw [readMembers_eq, h]

theorem readMembers_of_some {first : Bool} {text key : List Char} {next : Found}
    (h : nextMember first text = .ok (some key, left))
    (hmember : found.readMember key left = .ok (next, rest)) :
    readMembers found first text = readMembers next false rest := by
  rw [readMembers_eq, h]
  dsimp only
  rw [hmember]
  rfl

/-- The rest of an object, behind one of its members. -/
theorem readMembers_following (h : found.Completes members after)
    (hmembers : ∀ member ∈ members, IsMember member.1 member.2) (hgap : IsGap gap)
    (rest : List Char) :
    readMembers found false (gap ++ Bracket.object.following (members.map (·.2)) rest) =
      .ok (after.limits, rest) := by
  induction members generalizing found gap with
  | nil =>
    obtain rfl := h.eq_of_nil
    exact readMembers_of_none (nextMember_closing false hgap rest)
  | cons member members ih =>
    rw [List.forall_mem_cons] at hmembers
    obtain ⟨hfirst, hmembers⟩ := hmembers
    have hend := endsNumber_gap hfirst.behind
      (Bracket.object.endsNumber_following (members.map (·.2)) rest)
    obtain ⟨left, space, hcolon, hspace, _, hnext⟩ := hfirst.exists_nextMember
      (member.2.value ++ (member.2.behind ++ Bracket.object.following (members.map (·.2)) rest))
    obtain ⟨next, hread, hmore⟩ := Found.exists_readMember h hfirst.value hcolon hspace hend
    rw [List.map_cons, Bracket.following_cons, readMembers_of_some (hnext gap hgap) hread,
      ih hmore hmembers hfirst.behind]

/-- All members of an object, behind its opening brace. -/
theorem readMembers_object {object : List Char} (h : found.Completes members after)
    (hmembers : ∀ member ∈ members, IsMember member.1 member.2)
    (hobject : Encloses .object (members.map (·.2)) object) (rest : List Char) :
    ∃ inner, object ++ rest = Bracket.object.opening :: inner ∧
      readMembers found true inner = .ok (after.limits, rest) := by
  cases members with
  | nil =>
    obtain rfl := h.eq_of_nil
    obtain @⟨gap, hgap⟩ := hobject
    refine ⟨gap ++ Bracket.object.closing :: rest, by simp, ?_⟩
    exact readMembers_of_none (nextMember_closing true hgap rest)
  | cons member members =>
    rw [List.forall_mem_cons] at hmembers
    obtain ⟨hfirst, hmembers⟩ := hmembers
    obtain ⟨left, space, hcolon, hspace, hnext, _⟩ := hfirst.exists_nextMember
      (member.2.value ++ (member.2.behind ++ Bracket.object.following (members.map (·.2)) rest))
    have hend := endsNumber_gap hfirst.behind
      (Bracket.object.endsNumber_following (members.map (·.2)) rest)
    obtain ⟨next, hread, hmore⟩ := Found.exists_readMember h hfirst.value hcolon hspace hend
    cases hobject with
    | elements =>
      refine ⟨_, ?_, (readMembers_of_some hnext hread).trans
        (readMembers_following hmore hmembers hfirst.behind rest)⟩
      simp [Element.text, ← Bracket.following_append _ _ rest]

end

/-! ## Lists -/

section

variable {digits front gap rest : List Char} {n : UInt64}

theorem nextItem_closing (first : Bool) (hgap : IsGap gap) (rest : List Char) :
    nextItem first (gap ++ Bracket.list.closing :: rest) =
      .ok (none, Bracket.list.closing :: rest) := by
  have hclosing := dropBlank_gap hgap Bracket.list.isBlank_closing rest
  rw [nextItem, hclosing]
  rfl

/-- An item is read, in front of all items or behind another one. -/
theorem nextItem_append (h : Counts digits n) (hfront : IsGap front) (hrest : EndsNumber rest) :
    nextItem true (front ++ (digits ++ rest)) = .ok (some n, rest) ∧
      ∀ space, IsGap space →
        nextItem false (space ++ ',' :: (front ++ (digits ++ rest))) = .ok (some n, rest) := by
  have hread := readCount_append h isGap_nil hrest
  obtain ⟨c, tail, rfl, hc⟩ := h.isNumber.exists_eq_cons
  have hdigit := dropBlank_gap hfront (isBlank_of_startsNumber hc) (tail ++ rest)
  have hclosing : c ≠ ']' := ne_of_startsNumber hc rfl
  constructor
  · simp only [List.nil_append, List.cons_append] at hread ⊢
    simp [nextItem, hdigit, hclosing, hread]
  · intro space hspace
    have hcomma := dropBlank_gap hspace (c := ',') rfl
    simp only [List.nil_append, List.cons_append] at hread ⊢
    simp only [nextItem, hcomma, hdigit, if_true]
    rw [if_neg (by decide), if_neg (by decide)]
    split
    · next heq => exact absurd (List.cons.inj heq).1 hclosing
    · rw [hread]

theorem readItems_of_nextItem {depth values : Option UInt64} {text left right : List Char}
    (hdepth : nextItem true text = .ok (depth, left))
    (hvalues : nextItem depth.isNone left = .ok (values, right))
    (hclosing : dropBlank right = Bracket.list.closing :: rest) :
    readItems text = .ok (Found.limits ⟨depth, values⟩, rest) := by
  simp only [readItems, bind, Except.bind, hdepth, hvalues, hclosing]
  rfl

/-- All items of a list, behind its opening bracket. -/
theorem readItems_list {items : List Element} {counts : List UInt64} {list : List Char}
    (hlength : counts.length ≤ 2) (hcounts : List.Forall₂ Counts (items.map (·.value)) counts)
    (hitems : ∀ item ∈ items, IsGap item.front ∧ IsGap item.behind)
    (hlist : Encloses .list items list) (rest : List Char) :
    ∃ inner, list ++ rest = Bracket.list.opening :: inner ∧
      readItems inner = .ok (Found.limits ⟨counts[0]?, counts[1]?⟩, rest) := by
  have hend (items : List Element) := Bracket.list.endsNumber_following items rest
  cases hlist with
  | @empty gap hgap =>
    cases hcounts
    refine ⟨gap ++ Bracket.list.closing :: rest, by simp, ?_⟩
    exact readItems_of_nextItem (nextItem_closing true hgap rest)
      (nextItem_closing true isGap_nil rest) (dropBlank_cons Bracket.list.isBlank_closing rest)
  | elements first items =>
    rw [List.forall_mem_cons] at hitems
    obtain ⟨⟨hfront, hbehind⟩, hitems⟩ := hitems
    refine ⟨first.front ++ (first.value ++ (first.behind ++ Bracket.list.following items rest)),
      by simp [Element.text, ← Bracket.following_append _ _ rest], ?_⟩
    cases hcounts with
    | @cons _ n _ counts hn hcounts =>
      have hfirst := (nextItem_append hn hfront (endsNumber_gap hbehind (hend items))).1
      cases items with
      | nil =>
        cases hcounts
        exact readItems_of_nextItem hfirst (nextItem_closing false hbehind rest)
          (dropBlank_cons Bracket.list.isBlank_closing rest)
      | cons second items =>
        rw [List.forall_mem_cons] at hitems
        obtain ⟨⟨hfront', hbehind'⟩, _⟩ := hitems
        cases hcounts with
        | @cons _ m _ counts hm hcounts =>
          obtain rfl : counts = [] := List.eq_nil_of_length_eq_zero (by simpa using hlength)
          obtain rfl : items = [] := List.map_eq_nil_iff.1 (List.forall₂_nil_right_iff.1 hcounts)
          have hsecond := (nextItem_append hm hfront' (endsNumber_gap hbehind' (hend []))).2
            first.behind hbehind
          rw [← Bracket.following_cons] at hsecond
          exact readItems_of_nextItem hfirst hsecond
            (dropBlank_gap hbehind' Bracket.list.isBlank_closing rest)

end

/-! ## Texts -/

/-- Whether the text is a container with the given elements, and white space around it. -/
def IsText (bracket : Bracket) (elements : List Element) (text : String) : Prop :=
  ∃ front container back, text.toList = front ++ (container ++ back) ∧ IsGap front ∧ IsGap back ∧
    Encloses bracket elements container

/-- Reads a container behind its opening bracket. -/
def readBehind : Bracket → List Char → Except Refusal (Limits × List Char)
  | .list => readItems
  | .object => readMembers {} true

/-- White space around a container does not matter. -/
theorem ofJson_of_readBehind {bracket : Bracket} {elements : List Element} {text : String}
    {limits : Limits} (h : IsText bracket elements text)
    (hread : ∀ container back, Encloses bracket elements container →
      ∃ inner, container ++ back = bracket.opening :: inner ∧
        readBehind bracket inner = .ok (limits, back)) :
    ofJson text = .ok limits := by
  obtain ⟨front, container, back, htext, hfront, hback, hcontainer⟩ := h
  obtain ⟨inner, hinner, hread⟩ := hread container back hcontainer
  have hempty : dropBlank back = [] := by
    have hdrop := dropBlank_append hback []
    rwa [List.append_nil] at hdrop
  rw [ofJson, htext, hinner, dropBlank_gap hfront bracket.isBlank_opening]
  cases bracket with
  | list =>
    rw [readBehind] at hread
    simp [Bracket.opening, bind, Except.bind, hread, hempty]
  | object =>
    rw [readBehind] at hread
    simp [Bracket.opening, bind, Except.bind, hread, hempty]

/-- An object is read as the limits that its members complete. -/
theorem ofJson_object {members : List (String × Element)} {text : String} {after : Found}
    (htext : IsText .object (members.map (·.2)) text)
    (hmembers : ∀ member ∈ members, IsMember member.1 member.2)
    (h : Found.Completes {} members after) : ofJson text = .ok after.limits :=
  ofJson_of_readBehind htext fun _ back hobject => readMembers_object h hmembers hobject back

/-- A list is read as the limits that its items stand for. -/
theorem ofJson_list {items : List Element} {counts : List UInt64} {text : String}
    (htext : IsText .list items text)
    (hitems : ∀ item ∈ items, IsGap item.front ∧ IsGap item.behind)
    (hcounts : List.Forall₂ Counts (items.map (·.value)) counts) (hlength : counts.length ≤ 2) :
    ofJson text = .ok (Found.limits ⟨counts[0]?, counts[1]?⟩) :=
  ofJson_of_readBehind htext fun _ back hlist => readItems_list hlength hcounts hitems hlist back

/-- What is printed in front of the value of a member. -/
theorem quotes_print (spacing : Spacing) (depth : Nat) (key : String) :
    Quotes (key.toList.flatMap escape) (spacing.newline depth ++ quote key ++ spacing.colon) := by
  obtain ⟨gap, hcolon, hgap⟩ := exists_colon_eq spacing
  have hline : IsGap (spacing.newline depth) := isBlank_of_mem_newline
  have hquotes : Quotes (key.toList.flatMap escape)
      (spacing.newline depth ++ '"' :: (key.toList.flatMap escape ++ '"' :: ([] ++ ':' :: gap))) :=
    .quotes hline isGap_nil hgap
  rw [quote, hcolon]
  simpa using hquotes

/-- Limits are printed as an object with their two members. -/
theorem isText_print (limits : Limits) (spacing : Spacing) :
    IsText .object
      [⟨spacing.newline 1 ++ quote depthKey ++ spacing.colon,
          Nat.toDigits 10 limits.depth.toNat, []⟩,
        ⟨spacing.newline 1 ++ quote valuesKey ++ spacing.colon,
          Nat.toDigits 10 limits.values.toNat, spacing.newline 0⟩]
      (limits.toJson.print spacing) := by
  refine ⟨[], _, [], ?_, isGap_nil, isGap_nil, .elements _ _⟩
  simp [print, toJson, write, writeMembers, Json.ofNat, Element.text, Bracket.following,
    Bracket.opening, Bracket.closing]

/-- The keys of limits are printed as they are. -/
theorem spells_keys : ∀ key ∈ [depthKey, valuesKey],
    Spells (key.toList.flatMap escape) key.toList := by
  have hkeys : ∀ key ∈ [depthKey, valuesKey], key.toList.flatMap escape = key.toList ∧
      key.toList.all (StandsForItself ·) = true := by decide +kernel
  intro key h
  rw [(hkeys key h).1]
  exact spells_self (hkeys key h).2

theorem isMember_print (spacing : Spacing) {key : String} (h : key ∈ [depthKey, valuesKey])
    (n : UInt64) {behind : List Char} (hbehind : IsGap behind) :
    IsMember key
      ⟨spacing.newline 1 ++ quote key ++ spacing.colon, Nat.toDigits 10 n.toNat, behind⟩ where
  front := ⟨_, spells_keys key h, quotes_print spacing 1 key⟩
  value := .number (counts_toDigits n).isNumber
  behind := hbehind

theorem once_toList {values : List (List Char)} {limit : Option UInt64}
    (h : List.Forall₂ Counts values limit.toList) : Once none values limit := by
  cases limit with
  | none =>
    cases h
    exact .inl ⟨rfl, rfl⟩
  | some n =>
    obtain ⟨digits, _, hdigits, hnil, rfl⟩ := List.forall₂_cons_right_iff.1 h
    cases hnil
    exact .inr ⟨rfl, digits, n, rfl, hdigits, rfl⟩

/-- Members that stand for limits in order complete these limits. -/
theorem completes_inOrder {members : List (String × Element)} {counts : List UInt64}
    (hkeys : members.map (·.1) = [depthKey, valuesKey].take counts.length)
    (hcounts : List.Forall₂ Counts (members.map (·.2.value)) counts) :
    Found.Completes {} members ⟨counts[0]?, counts[1]?⟩ := by
  have hne : depthKey ≠ valuesKey := by decide +kernel
  have hsome {digits : List Char} {n : UInt64} (h : Counts digits n) :
      Once none [digits] (some n) :=
    .inr ⟨rfl, digits, n, rfl, h, rfl⟩
  rcases counts with _ | ⟨n, _ | ⟨m, counts⟩⟩
  · obtain rfl := List.map_eq_nil_iff.1 hkeys
    exact ⟨.inl ⟨rfl, rfl⟩, .inl ⟨rfl, rfl⟩⟩
  · obtain ⟨⟨_, first⟩, members, rfl, rfl, hnil⟩ := List.map_eq_cons_iff.1 hkeys
    obtain rfl := List.map_eq_nil_iff.1 hnil
    cases hcounts with
    | cons hn _ =>
      refine ⟨?_, ?_⟩
      · rw [valuesUnder_self]
        exact hsome hn
      · rw [valuesUnder_of_ne hne]
        exact .inl ⟨rfl, rfl⟩
  · obtain ⟨⟨_, first⟩, members, rfl, rfl, hmore⟩ := List.map_eq_cons_iff.1 hkeys
    obtain ⟨⟨_, second⟩, members, rfl, rfl, hnil⟩ := List.map_eq_cons_iff.1 hmore
    rw [List.take_nil] at hnil
    obtain rfl := List.map_eq_nil_iff.1 hnil
    cases hcounts with
    | cons hn hcounts =>
      cases hcounts with
      | cons hm _ =>
        refine ⟨?_, ?_⟩
        · rw [valuesUnder_self, valuesUnder_of_ne hne.symm]
          exact hsome hn
        · rw [valuesUnder_of_ne hne, valuesUnder_self]
          exact hsome hm

/-- An object with the limits in order is read as these limits. -/
theorem ofJson_inOrder {members : List (String × Element)} {counts : List UInt64} {text : String}
    (htext : IsText .object (members.map (·.2)) text)
    (hmembers : ∀ member ∈ members, IsMember member.1 member.2)
    (hkeys : members.map (·.1) = [depthKey, valuesKey].take counts.length)
    (hcounts : List.Forall₂ Counts (members.map (·.2.value)) counts) :
    ofJson text = .ok (Found.limits ⟨counts[0]?, counts[1]?⟩) :=
  ofJson_object htext hmembers (completes_inOrder hkeys hcounts)

/-- What is printed for limits is read as these limits. -/
theorem ofJson_print (limits : Limits) (spacing : Spacing) :
    ofJson (limits.toJson.print spacing) = .ok limits := by
  have htext : IsText .object ([(depthKey, _), (valuesKey, _)].map (·.2)) _ :=
    isText_print limits spacing
  have hdepth := isMember_print spacing List.mem_cons_self limits.depth isGap_nil
  have hvalues := isMember_print spacing (List.mem_cons_of_mem _ List.mem_cons_self) limits.values
    (isBlank_of_mem_newline : IsGap (spacing.newline 0))
  have hmembers : ∀ member ∈ [(depthKey, _), (valuesKey, _)], IsMember member.1 member.2 :=
    List.forall_mem_cons.2 ⟨hdepth, List.forall_mem_singleton.2 hvalues⟩
  have hcounts := List.Forall₂.cons (counts_toDigits limits.depth)
    (.cons (counts_toDigits limits.values) .nil)
  exact ofJson_inOrder htext hmembers rfl hcounts

/-- **Limits survive JSON, and what is not known is passed over.**

Limits are read back from their own text, in either spacing.  An object is read as the limits whose
keys it has and the defaults of the others, if neither key is there more than once and each of the
two stands for plain digits of a number below `2 ^ 64`.  Keys may be spelled with escapes; the white
space, the order of the members, all other keys and their values are free.  A list of at most two
such numbers is read like an object with the first one, or both, of the keys in order. -/
theorem ofJson_cases :
    let standard : Limits := {}
    (∀ (limits : Limits) (spacing : Spacing), ofJson (limits.toJson.print spacing) = .ok limits) ∧
      (∀ (members : List (String × Element)) (depth values : Option UInt64) (text : String),
        IsText .object (members.map (·.2)) text →
          (∀ member ∈ members, IsMember member.1 member.2) →
            List.Forall₂ Counts (valuesUnder depthKey members) depth.toList →
              List.Forall₂ Counts (valuesUnder valuesKey members) values.toList →
                ofJson text = .ok ⟨depth.getD standard.depth, values.getD standard.values⟩) ∧
      ∀ (items : List Element) (counts : List UInt64) (text : String),
        IsText .list items text → (∀ item ∈ items, IsGap item.front ∧ IsGap item.behind) →
          List.Forall₂ Counts (items.map (·.value)) counts → counts.length ≤ 2 →
            ofJson text = .ok ⟨counts[0]?.getD standard.depth, counts[1]?.getD standard.values⟩ ∧
              ∀ (members : List (String × Element)) (object : String),
                IsText .object (members.map (·.2)) object →
                  (∀ member ∈ members, IsMember member.1 member.2) →
                    members.map (·.1) = [depthKey, valuesKey].take counts.length →
                      List.Forall₂ Counts (members.map (·.2.value)) counts →
                        ofJson object = ofJson text := by
  intro standard
  refine ⟨ofJson_print, ?_, ?_⟩
  · intro members depth values text htext hmembers hdepth hvalues
    have h : Found.Completes {} members ⟨depth, values⟩ :=
      ⟨once_toList hdepth, once_toList hvalues⟩
    exact ofJson_object htext hmembers h
  · intro items counts text htext hitems hcounts hlength
    have hlist := ofJson_list htext hitems hcounts hlength
    refine ⟨hlist, fun members object hobject hmembers hkeys hvalues => ?_⟩
    rw [hlist]
    exact ofJson_inOrder hobject hmembers hkeys hvalues

/-- A key with an escape between two unknown members of one key, which hold half of a pair in a list
and a number that no double can hold; and a list of one number, which is read like an object. -/
theorem ofJson_cases_unknown :
    ofJson " \x7b\"a\":[\"\\ud800\"] ,\"max\\u005fdepth\":7,\"a\":1e999\x7d\n" =
        .ok ⟨7, 16777216⟩ ∧
      ofJson "[ 7]" = .ok ⟨7, 16777216⟩ ∧
        ofJson "\x7b\"max\\u005fdepth\":7\x7d" = ofJson "[ 7]" := by
  obtain ⟨_, hobject, hlist⟩ := ofJson_cases
  have hspace : IsGap [' '] := List.forall_mem_singleton.2 rfl
  have hline : IsGap ['\n'] := List.forall_mem_singleton.2 rfl
  have hseven : Counts ['7'] 7 := counts_toDigits 7
  have hhalf : IsValue ['[', '"', '\\', 'u', 'd', '8', '0', '0', '"', ']'] := by
    have hunit : IsUnit ['d', '8', '0', '0'] 0xD800 := ⟨13, 8, 0, 0, by decide +kernel, rfl⟩
    have hlist : Encloses .list [⟨[], ['"', '\\', 'u', 'd', '8', '0', '0', '"'], []⟩]
        ['[', '"', '\\', 'u', 'd', '8', '0', '0', '"', ']'] := .elements _ _
    refine .container hlist ?_ ?_ ?_
    · exact List.forall_mem_singleton.2 isGap_nil
    · exact List.forall_mem_singleton.2 (.string (.unit hunit .nil))
    · exact List.forall_mem_singleton.2 isGap_nil
  have hgreat : IsValue ['1', 'e', '9', '9', '9'] := by
    have hnines : IsDigits ['9', '9', '9'] := ⟨by decide, List.all_eq_true.1 rfl⟩
    exact .number ⟨[], ['1'], [], ['e', '9', '9', '9'], by decide, (counts_toDigits 1).1, .inl rfl,
      .inr ⟨'e', [], ['9', '9', '9'], .inl rfl, by decide, hnines, rfl⟩, rfl⟩
  have hkey : Spells "max\\u005fdepth".toList depthKey.toList := by
    have hscore : IsUnit ['0', '0', '5', 'f'] 0x5F := ⟨0, 0, 5, 15, by decide +kernel, rfl⟩
    have hdepth : Spells ['d', 'e', 'p', 't', 'h'] _ := spells_self (by decide)
    have hcode : "max\\u005fdepth".toList = 'm' :: 'a' :: 'x' ::
        '\\' :: 'u' :: (['0', '0', '5', 'f'] ++ ['d', 'e', 'p', 't', 'h']) := by decide +kernel
    have hchars : depthKey.toList =
        'm' :: 'a' :: 'x' :: Char.ofNat 0x5F :: ['d', 'e', 'p', 't', 'h'] := by decide +kernel
    rw [hcode, hchars]
    exact .itself (by decide) (.itself (by decide) (.itself (by decide)
      (.unit hscore rfl rfl hdepth)))
  let member (code value behind : List Char) : Element :=
    ⟨[] ++ '"' :: (code ++ '"' :: ([] ++ ':' :: [])), value, behind⟩
  have hmember (key : String) {code value behind : List Char} (hcode : Spells code key.toList)
      (hvalue : IsValue value) (hbehind : IsGap behind) :
      IsMember key (member code value behind) :=
    ⟨⟨code, hcode, .quotes isGap_nil isGap_nil isGap_nil⟩, hvalue, hbehind⟩
  have hother : Spells "a".toList "a".toList := spells_self (by decide +kernel)
  have hfirst := hmember "a" hother hhalf hspace
  have hdepth := hmember depthKey hkey (.number hseven.isNumber) isGap_nil
  have hlast := hmember "a" hother hgreat isGap_nil
  have hitem := hlist [⟨[' '], ['7'], []⟩] [7] "[ 7]"
    ⟨[], _, [], by decide +kernel, isGap_nil, isGap_nil, .elements _ _⟩
    (List.forall_mem_singleton.2 ⟨hspace, isGap_nil⟩) (.cons hseven .nil) (by decide)
  refine ⟨?_, hitem.1, ?_⟩
  · exact hobject [("a", _), (depthKey, _), ("a", _)] (some 7) none _
      ⟨[' '], _, ['\n'], by decide +kernel, hspace, hline, .elements _ _⟩
      (List.forall_mem_cons.2 ⟨hfirst, List.forall_mem_cons.2 ⟨hdepth,
        List.forall_mem_singleton.2 hlast⟩⟩) (.cons hseven .nil) .nil
  · exact hitem.2 [(depthKey, _)] _
      ⟨[], _, [], by decide +kernel, isGap_nil, isGap_nil, .elements _ _⟩
      (List.forall_mem_singleton.2 hdepth) rfl (.cons hseven .nil)

end Limits

end BinaryLayout
