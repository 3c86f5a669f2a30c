import ComponentCompiler.Proofs.Name.Free
import ComponentCompiler.Proofs.Name.Parameter

/-!
This module contains that the names which a piece of code reads do not depend on its layout. Two
pieces with the same tokens read the same names in the same order, whatever white space and comments
stand between the tokens and wherever in the text their markup stands.
-/

namespace ComponentCompiler

/-- The same problem, wherever it is. -/
inductive ScanError.SameProblem : ScanError → ScanError → Prop where
  | problem (problem : Problem) (pos pos' : Nat) :
    SameProblem (.problem problem pos) (.problem problem pos')

namespace Token

open ScanError (SameProblem)

variable {tokens tokens' : List Token} {items : List Item}

/-! ### Grouping -/

theorem group.go_unmatched {stack : List Open} {items : List Item} {t : Token} {ts : List Token}
    (hopen : t.opens? = none)
    (hclose : t.closes? = some bracket) (hstack : ∀ o ∈ stack.head?, o.bracket ≠ bracket) :
    group.go stack items (t :: ts) = .error (.problem (.unmatchedBracket t.value) t.start) := by
  rw [group.go.eq_def]
  cases stack with
  | nil => simp [hopen, hclose]
  | cons o stack => simp [hopen, hclose, hstack o rfl]

theorem group.go_sameProblem (hts : List.Forall₂ SameText tokens tokens') (hstack : List.Forall₂
      (fun o o' : Open => o.bracket = o'.bracket ∧ o.opener.value = o'.opener.value) stack stack')
    (items items' : List Item) :
    Paired SameProblem (fun _ _ => True) (group.go stack items tokens)
      (group.go stack' items' tokens') := by
  fun_induction group.go stack items tokens generalizing stack' items' tokens' with
  | case1 items =>
    cases hts
    cases hstack
    exact .ok trivial
  | case2 o stack items =>
    cases hts
    cases hstack with
    | cons ho hstack =>
      rw [group.go, ho.2]
      exact .error (.problem _ _ _)
  | case3 stack items t ts bracket hopen ih =>
    cases hts with
    | cons ht hts =>
      rw [group.go_opening (ht.opens? ▸ hopen)]
      apply ih hts
      exact .cons ⟨rfl, ht.2⟩ hstack
  | case4 items t ts bracket hclose hopen =>
    cases hts with
    | cons ht hts =>
      cases hstack
      rw [group.go_unmatched (ht.opens? ▸ hopen) (ht.closes? ▸ hclose) (by simp), ht.2]
      exact .error (.problem _ _ _)
  | case5 items t ts hopen o stack hclose ih =>
    cases hts with
    | cons ht hts =>
      cases hstack with
      | @cons _ o' _ _ ho hstack =>
        rw [ht.closes?, ho.1] at hclose
        rw [group.go_closing (ht.opens? ▸ hopen) hclose]
        exact ih hts hstack _
  | case6 items t ts bracket hclose hopen o stack hne =>
    cases hts with
    | cons ht hts =>
      cases hstack with
      | cons ho hstack =>
        rw [ho.1] at hne
        rw [group.go_unmatched (ht.opens? ▸ hopen) (ht.closes? ▸ hclose) (by simpa using hne), ht.2]
        exact .error (.problem _ _ _)
  | case7 stack items t ts hclose hopen ih =>
    cases hts with
    | cons ht hts =>
      rw [group.go_other (ht.opens? ▸ hopen) (ht.closes? ▸ hclose)]
      exact ih hts hstack _

theorem group_paired (h : List.Forall₂ SameText tokens tokens') :
    Paired SameProblem (fun items items' => items.map Item.detached = items'.map Item.detached)
      (group tokens) (group tokens') := by
  have hpaired := group.go_sameProblem h .nil [] []
  change Paired SameProblem (fun _ _ => True) (group tokens) (group tokens') at hpaired
  cases hitems : group tokens with
  | error e =>
    rw [hitems] at hpaired
    generalize group tokens' = result at hpaired ⊢
    cases hpaired with
    | error he => exact .error he
  | ok items =>
    obtain ⟨items', hitems', hdetached⟩ := group_sameText hitems h
    rw [hitems']
    exact .ok hdetached.symm

/-! ### Markup in its place -/

variable {text : String} {start stop pos : Nat} {rest : List Char}

theorem starts_of_mem_scanWindow {t : Token} (h : scanWindow text start stop = .ok tokens)
    (ht : t ∈ tokens) :
    ∃ (w : Word) (operand : Bool) (rest : List Char), w.Starts operand rest ∧ w.kind = t.kind ∧
      t.value = String.ofList w.text ∧ text.toList.drop t.start = w.text ++ rest := by
  obtain ⟨ws, rest, hrun, htext, rfl⟩ := scanFrom_ok h
  obtain ⟨i, hi⟩ := List.mem_iff_getElem?.mp ht
  obtain ⟨pre, w, post, rfl, _, rfl⟩ := exists_of_getElem?_tokensAt hi
  refine ⟨w, _, charsOf post ++ rest, (run_append.mp hrun).2.1, rfl, rfl, ?_⟩
  have hdrop : text.toList.drop (start + (charsOf pre).length + w.gap.length)
      = (text.toList.drop start).drop ((charsOf pre ++ w.gap).length) := by
    rw [List.drop_drop, List.length_append, Nat.add_assoc]
  have hsplit : charsOf (pre ++ w :: post) ++ rest =
      (charsOf pre ++ w.gap) ++ (w.text ++ (charsOf post ++ rest)) := by
    simp [Word.chars]
  rw [Word.token, hdrop, htext, hsplit, List.drop_left]

theorem length_value_le {t : Token} (h : scanWindow text start stop = .ok tokens)
    (ht : t ∈ tokens) : t.value.length ≤ text.length := by
  obtain ⟨w, _, rest, _, _, hvalue, hdrop⟩ := starts_of_mem_scanWindow h ht
  have hlength := congrArg List.length hdrop
  rw [List.length_drop, List.length_append, String.length_toList] at hlength
  rw [hvalue, String.length_ofList]
  omega

theorem BalancedWindow.rescans (h : BalancedWindow text start stop) :
    ∃ own, scan (Text.slice text start stop) = .ok own ∧
      scanWindow text start stop = .ok (own.map (shift start)) := by
  obtain ⟨ws, gap, rest, htext, hrun, _, hgap, hstop⟩ := h
  obtain ⟨hscan, own, hown, htokens⟩ := rescans_of_run hrun hgap htext hstop
  exact ⟨own, hown, by rw [hscan, htokens]⟩

structure SameWindow (text : String) (pos : Nat) (part : String) (slot : Nat × Nat) : Prop where
  inText : BalancedWindow text (pos + slot.1) (pos + slot.2)
  inPart : BalancedWindow part slot.1 slot.2
  slice : Text.slice text (pos + slot.1) (pos + slot.2) = Text.slice part slot.1 slot.2
  shorter : (Text.slice part slot.1 slot.2).length < part.length

theorem slice_of_drop {part : List Char} (htext : text.toList.drop pos = part ++ rest)
    (hstop : stop ≤ part.length) :
    Text.slice text (pos + start) (pos + stop) = Text.slice (String.ofList part) start stop := by
  have hsub : pos + stop - (pos + start) = stop - start := by omega
  rw [Text.slice, Text.slice, ← List.drop_drop, htext, hsub, String.toList_ofList]
  by_cases hstart : start ≤ part.length
  . rw [List.drop_append_of_le_length hstart, List.take_append_of_le_length]
    rw [List.length_drop]
    omega
  . have hzero : stop - start = 0 := by omega
    rw [hzero, List.take_zero, List.take_zero]

theorem Slot.Within.lt {cs : List Char} {s : Slot} (h : s.Within cs) :
    s.startLeft < cs.length ∧ s.stopLeft ≤ s.startLeft ∧ 0 < s.stopLeft := by
  obtain ⟨content, after, n, left, hinner, hread, rfl⟩ := h
  obtain ⟨ws, gap, hcontent, _⟩ := words_of_groupRest hread
  have hlength := congrArg List.length hcontent
  have hle := hinner.length_le
  simp only [List.length_append, List.length_cons] at hlength hle
  refine ⟨hle, ?_, Nat.succ_pos _⟩
  dsimp only
  omega

def ReadsSlots (used : List Char) (base : List Slot) : Prop :=
  ∀ m left next, used.length ≤ m →
    markupRest m left (used ++ next) = .ok (base.map (Slot.shift next.length), next)

theorem Word.Starts.readsSlots {w : Word} (h : w.Starts operand rest) (hkind : w.kind = .markup) :
    ∃ c used base, w.text = c :: used ∧ ReadsSlots used base := by
  obtain ⟨_, c, used, hused, hread⟩ := h
  have hread := hread _ (Nat.le_refl used.length)
  rw [lexeme_ok, hkind] at hread
  cases hread with
  | markup _ _ _ hread =>
    obtain ⟨used', base, hcs, _, _, hclosed⟩ := (Closed.of_fuel _).markup hread
    obtain rfl := List.append_cancel_right hcs
    exact ⟨c, used, base, hused, hclosed⟩

def Slot.placeIn (used : List Char) (pos : Nat) (s : Slot) : Nat × Nat :=
  (pos + (used.length + 1 - s.startLeft), pos + (used.length + 1 - s.stopLeft))

namespace ReadsSlots

variable {used : List Char} {base : List Slot} {c : Char}

theorem within (h : ReadsSlots used base) (rest : List Char) :
    ∀ s ∈ base, (s.shift rest.length).Within (used ++ rest) := by
  intro s hs
  have hread := h used.length 0 rest (Nat.le_refl _)
  exact (SlotsWithin.of_fuel _).markup hread _ (List.mem_map_of_mem hs)

theorem bounds (h : ReadsSlots used base) :
    ∀ s ∈ base, s.startLeft < used.length ∧ s.stopLeft ≤ s.startLeft ∧ 0 < s.stopLeft := by
  intro s hs
  have hlt := (h.within [] s hs).lt
  simpa [Slot.shift] using hlt

theorem left_eq {text : String} (htext : text.toList.drop pos = c :: used ++ rest)
    (hle : n ≤ used.length + 1) :
    text.length - (n + rest.length) = pos + (used.length + 1 - n) := by
  have hlength := congrArg List.length htext
  rw [List.length_drop, String.length_toList, List.length_append, List.length_cons] at hlength
  omega

theorem markupSlots_eq (h : ReadsSlots used base)
    (htext : text.toList.drop pos = c :: used ++ rest) :
    markupSlots text pos = .ok (base.map (Slot.placeIn used pos)) := by
  have hinner : text.toList.drop (pos + 1) = used ++ rest := by
    rw [← List.drop_drop, htext]
    rfl
  have hread := h ((used ++ rest).length + 1) ((used ++ rest).length + 1) rest
    (by rw [List.length_append]; omega)
  rw [markupSlots, readMarkup, hinner, hread]
  change Except.ok _ = _
  rw [List.map_map, Except.ok.injEq]
  apply List.map_congr_left
  intro s hs
  obtain ⟨hstart, hstop, _⟩ := h.bounds s hs
  rw [Function.comp_apply, Slot.shift, left_eq htext (by omega), left_eq htext (by omega),
    Slot.placeIn]

theorem window (h : ReadsSlots used base) (htext : text.toList.drop pos = c :: used ++ rest)
    {s : Slot} (hs : s ∈ base) :
    BalancedWindow text (s.placeIn used pos).1 (s.placeIn used pos).2 := by
  have hsuffix : used ++ rest <:+ text.toList := by
    have htail : used ++ rest <:+ text.toList.drop pos := by
      rw [htext]
      exact List.suffix_cons c _
    exact htail.trans (List.drop_suffix _ _)
  have hwindow := ((h.within rest s hs).mono hsuffix).window
  obtain ⟨hstart, hstop, _⟩ := h.bounds s hs
  rwa [Slot.shift, left_eq htext (by omega), left_eq htext (by omega)] at hwindow

end ReadsSlots

theorem markupSlots_of_drop {w : Word} (h : w.Starts operand rest) (hkind : w.kind = .markup)
    (htext : text.toList.drop pos = w.text ++ rest) :
    ∃ slots, markupSlots (String.ofList w.text) 0 = .ok slots ∧
      markupSlots text pos = .ok (slots.map fun slot => (pos + slot.1, pos + slot.2)) ∧
      ∀ slot ∈ slots, SameWindow text pos (String.ofList w.text) slot := by
  obtain ⟨c, used, base, hused, hslots⟩ := h.readsSlots hkind
  rw [hused] at htext ⊢
  have hpart : (String.ofList (c :: used)).toList.drop 0 = c :: used ++ [] := by simp
  refine ⟨base.map (Slot.placeIn used 0), hslots.markupSlots_eq hpart, ?_, ?_⟩
  . rw [hslots.markupSlots_eq htext, List.map_map]
    simp [Slot.placeIn, Function.comp_def]
  . intro slot hslot
    obtain ⟨s, hs, rfl⟩ := List.mem_map.mp hslot
    obtain ⟨hstart, hstop, hpos⟩ := hslots.bounds s hs
    refine ⟨?_, hslots.window hpart hs, slice_of_drop htext ?_, ?_⟩
    . have hwindow := hslots.window htext hs
      simpa [Slot.placeIn] using hwindow
    . simp only [Slot.placeIn, List.length_cons]
      omega
    . rw [Text.slice, String.length_ofList, String.length_ofList, List.length_take,
        List.length_cons]
      simp only [Slot.placeIn]
      omega

end Token

namespace Name

/-! ### Uses of items -/

theorem isPunct_detached (item : Option Item) (value : String) :
    isPunct (item.map Item.detached) value = isPunct item value := by
  cases item with
  | none => rfl
  | some item => exact Item.isPunct_detached item value

theorem name?_detached (item : Item) : item.detached.name? = item.name? := by
  cases item <;> rfl

theorem isName_detached (item : Option Item) (value : String) :
    isName (item.map Item.detached) value = isName item value := by
  cases item with
  | none => rfl
  | some item => cases item <;> rfl

theorem followsBinder_detached (item : Option Item) :
    followsBinder (item.map Item.detached) = followsBinder item := by
  cases item with
  | none => rfl
  | some item => cases item <;> rfl

theorem listsParameters_detached (before prev next : Option Item) :
    listsParameters (before.map Item.detached) (prev.map Item.detached) (next.map Item.detached) =
      listsParameters before prev next := by
  simp only [listsParameters, isPunct_detached, isName_detached, Option.any_map, name?_detached]

theorem usesOfName_detached (bracket : Option Bracket) (prev next : Option Item) (name : String) :
    usesOfName bracket (prev.map Item.detached) (next.map Item.detached) name =
      usesOfName bracket prev next name := by
  simp only [usesOfName, isPunct_detached, Option.isNone_map, Option.any_map, name?_detached]

def GivenByText (byText : String → Except ScanError Uses) (markup : Nat → Except ScanError Uses)
    (tokens : List Token) : Prop :=
  ∀ t ∈ tokens, t.kind = .markup → markup t.start = byText t.value

section

variable {byText : String → Except ScanError Uses} {markup markup' : Nat → Except ScanError Uses}

mutual

theorem usesOfItem_congr (bracket : Option Bracket)
    {before before' prev prev' next next' : Option Item}
    (hbefore : before.map Item.detached = before'.map Item.detached)
    (hprev : prev.map Item.detached = prev'.map Item.detached)
    (hnext : next.map Item.detached = next'.map Item.detached)
    (item item' : Item) (hitem : item.detached = item'.detached) (hmatched : item.Matched)
    (hmatched' : item'.Matched)
    (h : GivenByText byText markup item.flatten) (h' : GivenByText byText markup' item'.flatten) :
    usesOfItem markup bracket before prev next item =
      usesOfItem markup' bracket before' prev' next' item' := by
  cases item with
  | token t =>
    cases item' with
    | group => cases hitem
    | token t' =>
      obtain ⟨hkind, hvalue⟩ : t.kind = t'.kind ∧ t.value = t'.value := by
        simp only [Item.detached, Item.token.injEq, Token.detached, Token.mk.injEq] at hitem
        exact ⟨hitem.1, hitem.2.1⟩
      simp only [usesOfItem, ← hkind, ← hvalue]
      split
      . next hmarkup =>
        rw [h t List.mem_cons_self hmarkup, h' t' List.mem_cons_self (hkind ▸ hmarkup), hvalue]
      . rw [← usesOfName_detached, hprev, hnext, usesOfName_detached]
      . rfl
  | group b opener items closer =>
    cases item' with
    | token => cases hitem
    | group b' opener' items' closer' =>
      obtain ⟨rfl, hitems⟩ : b = b' ∧ items.map Item.detached = items'.map Item.detached := by
        simp only [Item.detached, Item.group.injEq, Item.detachedAll_eq_map] at hitem
        exact ⟨hitem.1, hitem.2.2.1⟩
      have hbound : (Item.group b opener items closer).boundNames =
          (Item.group b opener' items' closer').boundNames := by
        rw [← Item.boundNames_detached hmatched, hitem, Item.boundNames_detached hmatched']
      have hinner : usesOfItems markup (some b) none none items =
          usesOfItems markup' (some b) none none items' := by
        cases hmatched with
        | group _ _ _ hmatched =>
          cases hmatched' with
          | group _ _ _ hmatched' =>
            apply usesOfItems_congr (some b) rfl rfl items items' hitems hmatched hmatched'
            . intro t ht
              exact h t (by simp [Item.flatten, ht])
            . intro t ht
              exact h' t (by simp [Item.flatten, ht])
      have hlists : listsParameters before prev next = listsParameters before' prev' next' := by
        rw [← listsParameters_detached, hbefore, hprev, hnext, listsParameters_detached]
      have hfollows : followsBinder prev = followsBinder prev' := by
        rw [← followsBinder_detached, hprev, followsBinder_detached]
      simp only [usesOfItem, hbound, hinner, hlists, hfollows]

theorem usesOfItems_congr (bracket : Option Bracket) {before before' prev prev' : Option Item}
    (hbefore : before.map Item.detached = before'.map Item.detached)
    (hprev : prev.map Item.detached = prev'.map Item.detached) (items items' : List Item)
    (hitems : items.map Item.detached = items'.map Item.detached)
    (hmatched : ∀ item ∈ items, item.Matched) (hmatched' : ∀ item ∈ items', item.Matched)
    (h : GivenByText byText markup (Item.flattenAll items))
    (h' : GivenByText byText markup' (Item.flattenAll items')) :
    usesOfItems markup bracket before prev items =
      usesOfItems markup' bracket before' prev' items' := by
  cases items with
  | nil =>
    rw [List.map_nil, eq_comm, List.map_eq_nil_iff] at hitems
    rw [hitems, usesOfItems, usesOfItems]
  | cons item items =>
    cases items' with
    | nil => cases hitems
    | cons item' items' =>
      rw [List.map_cons, List.map_cons, List.cons.injEq] at hitems
      rw [List.forall_mem_cons] at hmatched hmatched'
      have hnext : items.head?.map Item.detached = items'.head?.map Item.detached := by
        rw [← List.head?_map, hitems.2, List.head?_map]
      have hfirst : usesOfItem markup bracket before prev items.head? item =
          usesOfItem markup' bracket before' prev' items'.head? item' := by
        apply usesOfItem_congr bracket hbefore hprev hnext item item' hitems.1 hmatched.1
          hmatched'.1
        . intro t ht
          exact h t (by simp [Item.flattenAll, ht])
        . intro t ht
          exact h' t (by simp [Item.flattenAll, ht])
      have hrest : usesOfItems markup bracket prev (some item) items =
          usesOfItems markup' bracket prev' (some item') items' := by
        apply usesOfItems_congr bracket hprev
          (by rw [Option.map_some, Option.map_some, hitems.1]) items items' hitems.2 hmatched.2
            hmatched'.2
        . intro t ht
          exact h t (by simp [Item.flattenAll, ht])
        . intro t ht
          exact h' t (by simp [Item.flattenAll, ht])
      simp only [usesOfItems, hfirst, hrest]

end

end

/-! ### Uses of windows -/

open Token (BalancedWindow Word SameText)
open ScanError (SameProblem)

variable {text text' : String} {tokens tokens' : List Token} {start stop start' stop' n m : Nat}

def usesInMarkup (text : String) (n pos : Nat) : Except ScanError Uses := do
  let slots ← Token.markupSlots text pos
  slots.foldlM (fun uses slot => return uses ++ (← usesInWindow text n slot.1 slot.2)) {}

theorem usesInWindow_succ (text : String) (n start stop : Nat) :
    usesInWindow text (n + 1) start stop
      =
    (Token.scanWindow text start stop >>= Token.group) >>= usesOfItems
    (usesInMarkup text n) none none none := by
  rw [usesInWindow, bind_assoc]
  rfl

def usesOfMarkup (value : String) : Except ScanError Uses :=
  usesInMarkup value value.length 0

def Local (size : Nat) : Prop :=
  ∀ {text : String} {pos n : Nat} {w : Word} {operand : Bool} {rest : List Char},
    w.Starts operand rest → w.kind = .markup →
    text.toList.drop pos = w.text ++ rest → w.text.length ≤ size → w.text.length ≤ n →
    usesInMarkup text n pos = usesOfMarkup (String.ofList w.text)

theorem Local.givenByText (h : Local size) (hscan : Token.scanWindow text start stop = .ok tokens)
    (hsize : ∀ t ∈ tokens, t.value.length ≤ size ∧ t.value.length ≤ n) :
    GivenByText usesOfMarkup (usesInMarkup text n) tokens := by
  intro t ht hkind
  obtain ⟨w, operand, rest, hw, hwkind, hvalue, hdrop⟩ := Token.starts_of_mem_scanWindow hscan ht
  have hsize := hsize t ht
  rw [hvalue, String.length_ofList] at hsize
  rw [hvalue]
  exact h hw (hwkind.trans hkind) hdrop hsize.1 hsize.2

theorem usesInMarkup_total {w : Word} (hw : w.Starts operand rest) (hkind : w.kind = .markup)
    (hdrop : text.toList.drop pos = w.text ++ rest) (n : Nat) :
    ∃ uses, usesInMarkup text n pos = .ok uses := by
  obtain ⟨slots, _, hslots, hwindows⟩ := Token.markupSlots_of_drop hw hkind hdrop
  rw [usesInMarkup, hslots, ok_bind, List.foldlM_map]
  apply foldlM_total
  intro slot hslot uses
  obtain ⟨own, hown⟩ := usesInWindow_total (hwindows slot hslot).inText n
  exact ⟨uses ++ own, by rw [hown]; rfl⟩

theorem Local.usesInWindow (h : Local size) (hscan : Token.scanWindow text start stop = .ok tokens)
    (hscan' : Token.scanWindow text' start' stop' = .ok tokens')
    (hsame : List.Forall₂ SameText tokens tokens')
    (hsize : ∀ t ∈ tokens, t.value.length ≤ size ∧ t.value.length ≤ n)
    (hsize' : ∀ t ∈ tokens', t.value.length ≤ size ∧ t.value.length ≤ m) :
    Paired SameProblem (· = ·) (Name.usesInWindow text (n + 1) start stop)
      (Name.usesInWindow text' (m + 1) start' stop') := by
  have hpaired := Token.group_paired hsame
  rw [usesInWindow_succ, usesInWindow_succ, hscan, hscan', ok_bind, ok_bind]
  generalize hgroup : Token.group tokens = grouped at hpaired
  generalize hgroup' : Token.group tokens' = grouped' at hpaired
  cases hpaired with
  | error he => exact .error he
  | @ok items items' hdetached =>
    have hflatten := Token.flattenAll_group hgroup
    have hflatten' := Token.flattenAll_group hgroup'
    have huses : usesOfItems (usesInMarkup text n) none none none items =
        usesOfItems (usesInMarkup text' m) none none none items' := by
      apply usesOfItems_congr none rfl rfl items items' hdetached (Token.matched_of_group hgroup)
        (Token.matched_of_group hgroup')
      . rw [hflatten]
        exact h.givenByText hscan hsize
      . rw [hflatten']
        exact h.givenByText hscan' hsize'
    obtain ⟨uses, htotal⟩ : ∃ uses, usesOfItems (usesInMarkup text n) none none none items =
        .ok uses := by
      apply usesOfItems_total
      intro t ht hkind
      rw [hflatten] at ht
      obtain ⟨w, operand, rest, hw, hwkind, _, hdrop⟩ := Token.starts_of_mem_scanWindow hscan ht
      exact usesInMarkup_total hw (hwkind.trans hkind) hdrop n
    rw [ok_bind, ok_bind, ← huses, htotal]
    exact .ok rfl

theorem Local.usesInWindow_eq {part : String} {pos : Nat} {slot : Nat × Nat} (h : Local size)
    (hwindow : Token.SameWindow text pos part slot) (hsize : part.length ≤ size + 1)
    (hn : part.length ≤ n) :
    Name.usesInWindow text n (pos + slot.1) (pos + slot.2) =
      Name.usesInWindow part part.length slot.1 slot.2 := by
  obtain ⟨hinText, hinPart, hslice, hshorter⟩ := hwindow
  obtain ⟨own, hown, hscan⟩ := hinText.rescans
  obtain ⟨own', hown', hscan'⟩ := hinPart.rescans
  rw [hslice] at hown
  obtain rfl : own = own' := Except.ok.inj (hown.symm.trans hown')
  have hvalue {offset : Nat} :
      ∀ t ∈ own.map (Token.shift offset), t.value.length < part.length := by
    intro t ht
    obtain ⟨u, hu, rfl⟩ := List.mem_map.mp ht
    have hle : u.value.length ≤ _ := Token.length_value_le hown hu
    exact Nat.lt_of_le_of_lt hle hshorter
  have hsame : List.Forall₂ SameText (own.map (Token.shift (pos + slot.1)))
      (own.map (Token.shift slot.1)) := by
    rw [List.forall₂_map_left_iff, List.forall₂_map_right_iff]
    exact List.forall₂_same.mpr fun _ _ => ⟨rfl, rfl⟩
  -- there is fuel left for what stands inside, which is shorter than the part
  obtain ⟨m, hm⟩ : ∃ m, part.length = m + 1 := ⟨part.length - 1, by omega⟩
  obtain ⟨k, rfl⟩ : ∃ k, n = k + 1 := ⟨n - 1, by omega⟩
  have hpaired := h.usesInWindow (n := k) (m := m) hscan hscan' hsame
    (fun t ht => by have := hvalue t ht; omega) (fun t ht => by have := hvalue t ht; omega)
  obtain ⟨uses, huses⟩ := usesInWindow_total hinPart (m + 1)
  rw [huses] at hpaired
  obtain ⟨_, huses', rfl⟩ := hpaired.exists_ok
  rw [hm, huses, huses']

theorem local_of_size (size : Nat) : Local size := by
  induction size with
  | zero =>
    intro text pos n w operand rest hw hkind hdrop hsize hn
    exact absurd (List.length_eq_zero_iff.mp (Nat.le_zero.mp hsize)) hw.text_ne_nil
  | succ size ih =>
    intro text pos n w operand rest hw hkind hdrop hsize hn
    obtain ⟨slots, hpart, hslots, hwindows⟩ := Token.markupSlots_of_drop hw hkind hdrop
    rw [usesOfMarkup, usesInMarkup, usesInMarkup, hpart, hslots, ok_bind, ok_bind, List.foldlM_map]
    apply foldlM_congr
    intro slot hslot uses
    rw [ih.usesInWindow_eq (hwindows slot hslot)]
    . rwa [String.length_ofList]
    . rwa [String.length_ofList]

/-! ### Free names -/

/-- Two windows with the same tokens, of the same text or of two, have the same free names in the
same order, whatever is excluded from them, unless the brackets of both fail to match for the same
reason. White space and comments between the tokens make no difference, nor do the places where the
tokens stand. -/
theorem freeInWindow_of_sameText (h : Token.scanWindow text start stop = .ok tokens)
    (h' : Token.scanWindow text' start' stop' = .ok tokens')
    (hsame : tokens.map (fun t => (t.kind, t.value)) = tokens'.map fun t => (t.kind, t.value))
    (exclude : List String) :
    Paired SameProblem (· = ·) (freeInWindow text start stop exclude)
      (freeInWindow text' start' stop' exclude) := by
  have hsame : List.Forall₂ SameText tokens tokens' := by
    rw [← List.forall₂_eq_eq_eq, List.forall₂_map_left_iff, List.forall₂_map_right_iff] at hsame
    exact hsame.imp fun _ _ => Prod.mk.inj
  have hlocal : Local (text.length + text'.length) := local_of_size _
  have huses := hlocal.usesInWindow (n := text.length) (m := text'.length) h h' hsame
    (fun t ht => by have := Token.length_value_le h ht; omega)
      (fun t ht => by have := Token.length_value_le h' ht; omega)
  apply huses.bind
  rintro uses _ rfl
  exact .pure rfl

/-- A call with markup in the slot of its markup, on one line and spread over several with
comments. -/
theorem freeInWindow_of_sameText_call :
    let text := "f(<b>\x7bx && <i c=\x7by\x7d/>\x7d</b>, a.z)"
    let text' := "f /* g */ (\n <b>\x7bx && <i c=\x7by\x7d/>\x7d</b> // h\n , a\n .z)"
    (∃ tokens tokens', Token.scan text = .ok tokens ∧ Token.scan text' = .ok tokens' ∧
      tokens.map (fun t => (t.kind, t.value)) = tokens'.map fun t => (t.kind, t.value)) ∧
    free text ["a"] = .ok ["f", "x", "y"] ∧
      Paired SameProblem (· = ·) (free text ["a"]) (free text' ["a"]) := by
  intro text text'
  have hcheck :
      ((Token.scan text).toOption.any fun tokens => (Token.scan text').toOption.any fun tokens' =>
      tokens.map (fun t => (t.kind, t.value)) == tokens'.map fun t => (t.kind, t.value)) =
        true := by
    decide +kernel
  obtain ⟨tokens, htokens, hcheck⟩ := exists_ok_of_any hcheck
  obtain ⟨tokens', htokens', hcheck⟩ := exists_ok_of_any hcheck
  have hsame := beq_iff_eq.mp hcheck
  exact ⟨⟨tokens, tokens', htokens, htokens', hsame⟩, by decide +kernel,
    freeInWindow_of_sameText htokens htokens' hsame ["a"]⟩

end Name
end ComponentCompiler
