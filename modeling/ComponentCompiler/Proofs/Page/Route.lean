import ComponentCompiler.Page.Directive
import ComponentCompiler.Page.Route
import ComponentCompiler.Proofs.Text.Slice

/-!
This module contains the form of the paths of pages. A path that a directive gives is a slash and a
text without slashes or white space at its start or white space at its end. A path that is made from
a name is a slash and the words of the name, in small letters and with a dash between them.
-/

namespace ComponentCompiler
namespace Page

variable {cs path : List Char} {words : List (List Char)} {text name : String}

/-! ### Paths of directives -/

/-- A slash, and a text which starts with neither a slash nor white space and does not end with
white space. -/
structure IsGiven (path : String) (rest : List Char) : Prop where
  toList : path.toList = '/' :: rest
  ne_nil : rest ≠ []
  head : ∀ c ∈ rest.head?, c ≠ '/' ∧ Text.isBlank c = false
  last : ∀ c ∈ rest.getLast?, Text.isBlank c = false

theorem eq_false_of_head?_dropWhile {p : Char → Bool} :
    ∀ c ∈ (cs.dropWhile p).head?, p c = false := by
  intro c hc
  have h := List.head?_dropWhile_not p cs
  rw [Option.mem_def] at hc
  rwa [hc] at h

theorem dropBlankEnd_isPrefix (cs : List Char) : Text.dropBlankEnd cs <+: cs := by
  have h := List.reverse_prefix.mpr (List.dropWhile_suffix (l := cs.reverse) Text.isBlank)
  rwa [List.reverse_reverse] at h

theorem strip_isInfix (cs : List Char) : strip cs <:+: cs :=
  (dropBlankEnd_isPrefix _).isInfix.trans (List.dropWhile_suffix _).isInfix

theorem isBlank_getLast?_strip : ∀ c ∈ (strip cs).getLast?, Text.isBlank c = false := by
  unfold strip Text.dropBlankEnd
  rw [List.getLast?_reverse]
  exact eq_false_of_head?_dropWhile

theorem head?_strip {c : Char} (h : c ∈ (strip cs).head?) : c ∈ (Text.dropBlank cs).head? := by
  obtain ⟨after, hafter⟩ := dropBlankEnd_isPrefix (Text.dropBlank cs)
  rw [← hafter, List.head?_append]
  unfold strip at h
  rw [Option.mem_def.mp h]
  rfl

theorem dropWhile_eq_self {p : Char → Bool} (h : ∀ c ∈ cs.head?, p c = false) :
    cs.dropWhile p = cs := by
  cases cs with
  | nil => rfl
  | cons c cs => exact List.dropWhile_cons_of_neg (by simp [h c rfl])

theorem strip_eq_self (hhead : ∀ c ∈ cs.head?, Text.isBlank c = false)
    (hlast : ∀ c ∈ cs.getLast?, Text.isBlank c = false) : strip cs = cs := by
  unfold strip Text.dropBlankEnd Text.dropBlank
  rw [dropWhile_eq_self hhead, dropWhile_eq_self, List.reverse_reverse]
  rwa [List.head?_reverse]

theorem isGiven_normalizeRoute (h : strip (cs.dropWhile fun c => c == '/' || Text.isBlank c) = path)
    (hne : path ≠ []) : IsGiven (normalizeRoute (String.ofList path)) path := by
  have hhead : ∀ c ∈ path.head?, c ≠ '/' ∧ Text.isBlank c = false := by
    intro c hc
    -- the white space was taken away together with the slashes, so stripping finds none at the
    -- start
    have hstart : ∀ c ∈ (cs.dropWhile fun c => c == '/' || Text.isBlank c).head?,
        (c == '/' || Text.isBlank c) = false :=
      eq_false_of_head?_dropWhile
    rw [← h] at hc
    have hc := head?_strip hc
    unfold Text.dropBlank at hc
    rw [dropWhile_eq_self] at hc
    . simpa using hstart c hc
    . intro c hc
      have := hstart c hc
      rw [Bool.or_eq_false_iff] at this
      exact this.2
  have hlast : ∀ c ∈ path.getLast?, Text.isBlank c = false := by
    rw [← h]
    exact isBlank_getLast?_strip
  have htrim : Text.trim (String.ofList path) = String.ofList path := by
    unfold Text.trim
    rw [String.toList_ofList]
    exact congrArg String.ofList (strip_eq_self (fun c hc => (hhead c hc).2) hlast)
  have hstart : Text.startsWith (String.ofList path) "/" = false := by
    cases path with
    | nil => rfl
    | cons c rest =>
      have hslash : ('/' == c) = false := by simpa using (hhead c rfl).1.symm
      simp [Text.startsWith, List.isPrefixOf, hslash]
  refine ⟨?_, hne, hhead, hlast⟩
  dsimp only [normalizeRoute]
  rw [htrim, hstart]
  simp

theorem afterPage?_suffix {rest : List Char} (h : afterPage? cs = some rest) : rest <:+ cs := by
  induction cs with
  | nil => cases h
  | cons c cs ih =>
    rw [afterPage?] at h
    split at h
    next found hfound =>
      cases h
      exact (ih hfound).trans (List.suffix_cons c cs)
    next =>
      split at h
      next hpage =>
        split at h
        . cases h
          rw [hpage]
          exact List.suffix_append ['@', 'p', 'a', 'g', 'e'] rest
        . cases h
      next => cases h

def GivenIn (cs : List Char) (m : Metadata) : Prop :=
  ∀ path ∈ m.routePath, ∃ rest, IsGiven path rest ∧ rest <:+: cs

theorem GivenIn.read {m : Metadata} {comment : List Char} (h : GivenIn cs m)
    (hcomment : comment <:+: cs) : GivenIn cs (m.read comment) := by
  unfold Metadata.read
  split
  next rest hrest =>
    dsimp only
    split
    . exact h
    next hne =>
      intro path hpath
      obtain rfl := Option.some.inj hpath
      refine ⟨_, isGiven_normalizeRoute rfl (by simpa using hne), ?_⟩
      have hafter : rest <:+: comment :=
        ((afterPage?_suffix hrest).trans (List.drop_suffix 2 comment)).isInfix
      exact (strip_isInfix _).trans
        ((List.dropWhile_suffix _).isInfix.trans (hafter.trans hcomment))
  next => exact h

theorem mem_of_mem_leadingComments {inBlock inImport : Bool} {comment : List Char}
    {lines : List (List Char)}
    (h : comment ∈ leadingComments.go inBlock inImport lines) : comment ∈ lines := by
  fun_induction leadingComments.go inBlock inImport lines with
  | case1 => cases h
  | case5 _ _ _ _ _ ih =>
    rcases List.mem_cons.mp h with rfl | h
    . exact List.mem_cons_self
    . exact List.mem_cons_of_mem _ (ih h)
  | case7 => cases h
  | case2 _ _ _ ih | case3 _ _ _ _ ih | case4 _ _ _ _ _ ih | case6 _ _ _ _ _ _ _ _ _ ih =>
    exact List.mem_cons_of_mem _ (ih h)

theorem givenIn_ofText (text : String) : GivenIn text.toList (Metadata.ofText text) := by
  unfold Metadata.ofText
  apply List.foldlRecOn
  . intro path hpath
    cases hpath
  . intro m hm comment hcomment
    apply hm.read
    obtain ⟨line, hline, rfl⟩ := List.mem_map.mp (mem_of_mem_leadingComments hcomment)
    obtain ⟨before, after, htext, _⟩ := Text.exists_of_mem_splitOnP hline
    exact (strip_isInfix line).trans ⟨before, after, by rw [htext, List.append_assoc]⟩

/-! ### Paths of names -/

/-- A run of small letters and digits. -/
structure IsRun (word : List Char) : Prop where
  ne_nil : word ≠ []
  chars : ∀ c ∈ word, ('a' ≤ c ∧ c ≤ 'z') ∨ ('0' ≤ c ∧ c ≤ '9')

/-- Runs of small letters and digits with a dash between each two of them. -/
def slug (words : List (List Char)) : List Char :=
  ['-'].intercalate words

def wordsOf (name : String) : List (List Char) :=
  (Text.splitOnP (!isSlugChar ·) (breakAcronyms (breakWords name.toList))).filter (!·.isEmpty)

theorem toList_kebabCase :
    (kebabCase name).toList = slug ((wordsOf name).map (·.map Char.toLower)) := by
  unfold kebabCase slug wordsOf
  rw [String.toList_intercalate, List.map_map]
  apply congrArg
  apply List.map_congr_left
  intro word _
  exact String.toList_ofList

theorem isSlugChar_iff {c : Char} :
    isSlugChar c = true ↔ ('A' ≤ c ∧ c ≤ 'Z') ∨ ('a' ≤ c ∧ c ≤ 'z') ∨ ('0' ≤ c ∧ c ≤ '9') := by
  simp [isSlugChar, Text.isAsciiLetter, Text.isAsciiDigit, or_assoc]

theorem le_iff_toNat {c d : Char} : c ≤ d ↔ c.toNat ≤ d.toNat :=
  Iff.rfl

theorem toNat_toLower_of_upper {c : Char} (h : 'A' ≤ c ∧ c ≤ 'Z') :
    c.toLower.toNat = c.toNat + 32 := by
  have hle : c.val.toNat ≤ 90 := h.2
  have hval : c.toLower.val = c.val + 32 := congrArg Char.val (dif_pos h)
  change c.toLower.val.toNat = c.val.toNat + 32
  rw [hval, UInt32.toNat_add]
  change (c.val.toNat + 32) % 2 ^ 32 = _
  omega

theorem toLower_of_not_upper {c : Char} (h : ¬ ('A' ≤ c ∧ c ≤ 'Z')) : c.toLower = c :=
  dif_neg h

theorem toLower_slugChar {c : Char} (h : isSlugChar c = true) :
    ('a' ≤ c.toLower ∧ c.toLower ≤ 'z') ∨ ('0' ≤ c.toLower ∧ c.toLower ≤ '9') := by
  rw [isSlugChar_iff] at h
  by_cases hupper : 'A' ≤ c ∧ c ≤ 'Z'
  . left
    have hlower := toNat_toLower_of_upper hupper
    rw [le_iff_toNat, le_iff_toNat] at hupper ⊢
    rw [hlower]
    simp only [Char.reduceToNat] at hupper ⊢
    omega
  . rw [toLower_of_not_upper hupper]
    exact h.resolve_left hupper

theorem isRun_of_mem_wordsOf : ∀ word ∈ (wordsOf name).map (·.map Char.toLower), IsRun word := by
  intro word hword
  obtain ⟨written, hwritten, rfl⟩ := List.mem_map.mp hword
  obtain ⟨hsplit, hne⟩ := List.mem_filter.mp hwritten
  constructor
  . simpa using hne
  . intro c hc
    obtain ⟨d, hd, rfl⟩ := List.mem_map.mp hc
    have hslug := Text.eq_false_of_mem_splitOnP hsplit d hd
    exact toLower_slugChar (by simpa using hslug)

/-! ### Names that are slugs already -/

theorem IsRun.isSlugChar {word : List Char} (h : IsRun word) : ∀ c ∈ word, isSlugChar c = true := by
  intro c hc
  exact isSlugChar_iff.mpr (.inr (h.chars c hc))

theorem IsRun.not_upper {word : List Char} (h : IsRun word) :
    ∀ c ∈ word, ¬ ('A' ≤ c ∧ c ≤ 'Z') := by
  intro c hc hupper
  have hchar := h.chars c hc
  simp only [le_iff_toNat, Char.reduceToNat] at hupper hchar
  omega

theorem breakWords_eq_self (h : ∀ c ∈ cs, isAsciiUpper c = false) : breakWords cs = cs := by
  fun_induction breakWords cs with
  | case1 a b cs hbreak ih => simp [h b (by simp)] at hbreak
  | case2 a b cs hbreak ih => rw [ih (fun c hc => h c (List.mem_cons_of_mem a hc))]
  | case3 => rfl

theorem breakAcronyms_eq_self (h : ∀ c ∈ cs, isAsciiUpper c = false) : breakAcronyms cs = cs := by
  fun_induction breakAcronyms cs with
  | case1 a b c cs hbreak ih => simp [h b (by simp)] at hbreak
  | case2 a b c cs hbreak ih => rw [ih (fun c hc => h c (List.mem_cons_of_mem a hc))]
  | case3 => rfl

theorem mem_slug {c : Char} (h : c ∈ slug words) : c = '-' ∨ ∃ word ∈ words, c ∈ word := by
  unfold slug at h
  induction words with
  | nil => simp at h
  | cons word words ih =>
    cases words with
    | nil =>
      rw [List.intercalate_singleton] at h
      exact .inr ⟨word, List.mem_cons_self, h⟩
    | cons next words =>
      rw [List.intercalate_cons_cons, List.mem_append, List.mem_append, List.mem_singleton] at h
      rcases h with (h | h) | h
      . exact .inr ⟨word, List.mem_cons_self, h⟩
      . exact .inl h
      . rcases ih h with h | ⟨other, hother, h⟩
        . exact .inl h
        . exact .inr ⟨other, List.mem_cons_of_mem word hother, h⟩

theorem splitOnP_slug (h : ∀ word ∈ words, ∀ c ∈ word, isSlugChar c = true) (hne : words ≠ []) :
    Text.splitOnP (!isSlugChar ·) (slug words) = words := by
  unfold slug
  induction words with
  | nil => exact absurd rfl hne
  | cons word words ih =>
    rw [List.forall_mem_cons] at h
    have hword : ∀ c ∈ word, (!isSlugChar c) = false := fun c hc => by simp [h.1 c hc]
    cases words with
    | nil => rw [List.intercalate_singleton, Text.splitOnP_eq_singleton hword]
    | cons next words =>
      rw [List.intercalate_cons_cons, List.append_assoc, List.singleton_append,
        Text.splitOnP_append hword (by decide), ih h.2 (List.cons_ne_nil _ _)]

theorem wordsOf_slug (h : ∀ word ∈ words, IsRun word) :
    wordsOf (String.ofList (slug words)) = words := by
  have hupper : ∀ c ∈ slug words, isAsciiUpper c = false := by
    intro c hc
    rcases mem_slug hc with rfl | ⟨word, hword, hc⟩
    . rfl
    . simpa [isAsciiUpper] using (h word hword).not_upper c hc
  unfold wordsOf
  rw [String.toList_ofList, breakWords_eq_self hupper, breakAcronyms_eq_self hupper]
  by_cases hne : words = []
  . rw [hne]
    rfl
  . rw [splitOnP_slug (fun word hword => (h word hword).isSlugChar) hne, List.filter_eq_self]
    intro word hword
    simpa using (h word hword).ne_nil

theorem map_toLower_eq_self (h : ∀ word ∈ words, IsRun word) :
    words.map (·.map Char.toLower) = words := by
  rw [List.map_congr_left (g := id), List.map_id]
  intro word hword
  rw [id, List.map_congr_left (g := id), List.map_id]
  intro c hc
  exact toLower_of_not_upper ((h word hword).not_upper c hc)

theorem kebabCase_slug (h : ∀ word ∈ words, IsRun word) :
    kebabCase (String.ofList (slug words)) = String.ofList (slug words) := by
  rw [← String.toList_inj, toList_kebabCase, wordsOf_slug h, map_toLower_eq_self h,
    String.toList_ofList]

/-! ### Letters of names -/

theorem filter_breakWords (cs : List Char) :
    (breakWords cs).filter isSlugChar = cs.filter isSlugChar := by
  have hdash : isSlugChar '-' = false := by decide
  fun_induction breakWords cs with
  | case1 a b cs hbreak ih =>
    rw [List.filter_cons, List.filter_cons (x := '-'), hdash, ih, List.filter_cons (x := a)]; rfl
  | case2 a b cs hbreak ih => rw [List.filter_cons, ih, List.filter_cons (x := a)]
  | case3 => rfl

theorem filter_breakAcronyms (cs : List Char) :
    (breakAcronyms cs).filter isSlugChar = cs.filter isSlugChar := by
  have hdash : isSlugChar '-' = false := by decide
  fun_induction breakAcronyms cs with
  | case1 a b c cs hbreak ih =>
    rw [List.filter_cons, List.filter_cons (x := '-'), hdash, ih, List.filter_cons (x := a)]; rfl
  | case2 a b c cs hbreak ih => rw [List.filter_cons, ih, List.filter_cons (x := a)]
  | case3 => rfl

theorem flatten_splitOnP (p : Char → Bool) (cs : List Char) :
    (Text.splitOnP (!p ·) cs).flatten = cs.filter p := by
  induction cs with
  | nil => rfl
  | cons c cs ih =>
    rw [Text.splitOnP]
    cases hc : p c with
    | false => simp [hc, ih]
    | true =>
      rw [List.filter_cons_of_pos hc, ← ih]
      cases Text.splitOnP (!p ·) cs with
      | nil => rfl
      | cons part parts => rfl

theorem filter_slug (h : ∀ word ∈ words, ∀ c ∈ word, isSlugChar c = true) :
    (slug words).filter isSlugChar = words.flatten := by
  unfold slug
  induction words with
  | nil => rfl
  | cons word words ih =>
    rw [List.forall_mem_cons] at h
    have hword : word.filter isSlugChar = word := List.filter_eq_self.mpr h.1
    cases words with
    | nil => rw [List.intercalate_singleton, hword, List.flatten_singleton]
    | cons next words =>
      have hdash : ['-'].filter isSlugChar = [] := by decide
      rw [List.intercalate_cons_cons, List.filter_append, List.filter_append, hword, hdash,
        List.append_nil, ih h.2]
      exact List.flatten_cons.symm

theorem filter_kebabCase : (kebabCase name).toList.filter isSlugChar =
    (name.toList.filter isSlugChar).map Char.toLower := by
  have hruns := @isRun_of_mem_wordsOf name
  rw [toList_kebabCase, filter_slug (fun word hword => (hruns word hword).isSlugChar),
    ← List.map_flatten, wordsOf,
    List.flatten_filter_not_isEmpty, flatten_splitOnP, filter_breakAcronyms, filter_breakWords]

/-! ### Routes -/

/-- One slash and no more is at the start. -/
def StartsAtRoot (path : String) : Prop :=
  ∃ rest, path.toList = '/' :: rest ∧ rest.head? ≠ some '/'

theorem IsGiven.startsAtRoot {path : String} {rest : List Char} (h : IsGiven path rest) :
    StartsAtRoot path := by
  refine ⟨rest, h.toList, ?_⟩
  intro hslash
  exact (h.head '/' hslash).1 rfl

theorem slug_head?_ne (h : ∀ word ∈ words, IsRun word) : (slug words).head? ≠ some '/' := by
  intro hslash
  rcases mem_slug (List.mem_of_head? hslash) with hdash | ⟨word, hword, hc⟩
  . exact absurd hdash (by decide)
  . exact absurd ((h word hword).isSlugChar '/' hc) (by decide)

theorem toList_defaultRoute (name file : Option String) :
    ∃ words, (∀ word ∈ words, IsRun word) ∧
      (defaultRoute name file).toList = '/' :: slug words := by
  unfold defaultRoute
  dsimp only
  split
  . exact ⟨[], List.forall_mem_nil _, rfl⟩
  . generalize withoutSuffix (if name.getD "" = "" then fileStem file else name.getD "") = base
    refine ⟨(wordsOf base).map (·.map Char.toLower), isRun_of_mem_wordsOf, ?_⟩
    simp [toList_kebabCase]

theorem path_of? (m : Metadata) (hpage : m.isPage = true) (component : String)
    (file : Option String) :
    ∃ route, Route.of? m component file = some route ∧
      (m.routePath = some route.path ∨ route.path = defaultRoute (some component) file) := by
  unfold Route.of?
  rw [if_pos hpage]
  refine ⟨_, rfl, ?_⟩
  dsimp only
  split
  . exact .inr rfl
  . exact .inr rfl
  next path _ hpath => exact .inl hpath

/-- The paths of pages. One that a directive gives stands in the text, after a slash. One that is
made from a name is a slash alone or a slash and a slug. So every page has a route, whose path
starts with one slash. Making a slug of a name keeps its letters and digits and changes nothing once
it is done. -/
theorem routes_wellFormed (text component : String) (name file : Option String) :
    (∀ path ∈ (Metadata.ofText text).routePath, ∃ rest, IsGiven path rest ∧ rest <:+: text.toList) ∧
    (defaultRoute name file = "/" ∨
      ∃ words, words ≠ [] ∧ (∀ word ∈ words, IsRun word) ∧
        (defaultRoute name file).toList = '/' :: slug words) ∧
    ((Metadata.ofText text).isPage = true →
      ∃ route, Route.of? (Metadata.ofText text) component file = some route ∧
        StartsAtRoot route.path) ∧
    ∀ name, kebabCase (kebabCase name) = kebabCase name ∧
      (kebabCase name).toList.filter isSlugChar =
      (name.toList.filter isSlugChar).map Char.toLower := by
  refine ⟨givenIn_ofText text, ?_, ?_, ?_⟩
  . obtain ⟨words, hwords, hroute⟩ := toList_defaultRoute name file
    by_cases hne : words = []
    . rw [hne] at hroute
      exact .inl (String.toList_inj.mp hroute)
    . exact .inr ⟨words, hne, hwords, hroute⟩
  . intro hpage
    obtain ⟨route, hroute, hpath⟩ := path_of? _ hpage component file
    refine ⟨route, hroute, ?_⟩
    rcases hpath with hpath | hpath
    . obtain ⟨_, hgiven, _⟩ := givenIn_ofText text _ hpath
      exact hgiven.startsAtRoot
    . obtain ⟨words, hwords, hdefault⟩ := toList_defaultRoute (some component) file
      exact ⟨slug words, hpath ▸ hdefault, slug_head?_ne hwords⟩
  . intro name
    refine ⟨?_, filter_kebabCase⟩
    have hslug : kebabCase name =
        String.ofList (slug ((wordsOf name).map (·.map Char.toLower))) := by
      rw [← toList_kebabCase, String.ofList_toList]
    rw [hslug]
    exact kebabCase_slug isRun_of_mem_wordsOf

/-- A directive with two slashes and white space around its path, in a file whose component has an
acronym in its name. -/
theorem routes_wellFormed_profile :
    (Metadata.ofText "// @page  //users/me \nf()").routePath = some "/users/me" ∧
      IsGiven "/users/me" "users/me".toList ∧
      (∃ route, Route.of? (Metadata.ofText "// @page  //users/me \nf()") "HTMLViewerPage" none =
        some route ∧
        StartsAtRoot route.path) ∧
      kebabCase (kebabCase "HTMLViewer") = "html-viewer" := by
  have hpath : (Metadata.ofText "// @page  //users/me \nf()").routePath =
      some "/users/me" := by decide +kernel
  have hpage : (Metadata.ofText "// @page  //users/me \nf()").isPage = true := by decide +kernel
  have hslug : kebabCase "HTMLViewer" = "html-viewer" := by decide +kernel
  obtain ⟨hgiven, _, hroute, hkebab⟩ :=
    routes_wellFormed "// @page  //users/me \nf()" "HTMLViewerPage" none none
  obtain ⟨rest, hrest, _⟩ := hgiven "/users/me" hpath
  have heq : "users/me".toList = rest := List.tail_eq_of_cons_eq hrest.toList
  exact ⟨hpath, heq ▸ hrest, hroute hpage, (hkebab "HTMLViewer").1.trans hslug⟩

end Page
end ComponentCompiler
