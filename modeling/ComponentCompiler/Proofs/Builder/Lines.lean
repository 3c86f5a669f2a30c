import ComponentCompiler.Builder.Code

/-!
This module contains what can be found in the lines of code: the entries of a call in its line, and
blocks of lines, indented.
-/

namespace ComponentCompiler
namespace Builder

def Occurs (part text : String) : Prop :=
  ∃ before after, text = before ++ part ++ after

theorem Occurs.trans (h : Occurs part text) (h' : Occurs text whole) : Occurs part whole := by
  obtain ⟨before, after, rfl⟩ := h
  obtain ⟨before', after', rfl⟩ := h'
  exact ⟨before' ++ before, after ++ after', by simp only [String.append_assoc]⟩

theorem occurs_empty (text : String) : Occurs "" text :=
  ⟨"", text, by simp⟩

theorem commas_append {first second : List String} (hfirst : first ≠ []) (hsecond : second ≠ []) :
    commas (first ++ second) = commas first ++ ", " ++ commas second :=
  String.intercalate_append_of_ne_nil hfirst hsecond

theorem occurs_commas {items list : List String} (h : items <:+: list) :
    Occurs (commas items) (commas list) := by
  obtain ⟨before, after, rfl⟩ := h
  -- the separator is written only between items, so that an empty part is a case of its own
  by_cases hitems : items = []
  . rw [hitems]
    exact occurs_empty _
  have hbefore : Occurs (commas items) (commas (before ++ items)) := by
    cases before with
    | nil => exact ⟨"", "", by simp⟩
    | cons => exact ⟨_, "", by rw [commas_append (by simp) hitems, String.append_empty]⟩
  refine hbefore.trans ?_
  cases after with
  | nil => exact ⟨"", "", by simp⟩
  | cons item after =>
    have happend : commas (before ++ items ++ item :: after) =
        commas (before ++ items) ++ ", " ++ commas (item :: after) :=
      commas_append (by simp [hitems]) (by simp)
    exact ⟨"", _, by rw [happend, String.empty_append, String.append_assoc]⟩

theorem occurs_configText {entries config : List Entry} (h : entries <:+: config) :
    Occurs (commas (entries.map Entry.text)) (configText config) := by
  unfold configText
  split
  . next hempty =>
    rw [List.isEmpty_iff] at hempty
    rw [hempty, List.infix_nil] at h
    rw [h]
    exact occurs_empty _
  . exact (occurs_commas (h.map Entry.text)).trans ⟨_, _, rfl⟩

theorem occurs_entry {entry : Entry} {config : List Entry} (h : entry ∈ config) :
    Occurs entry.text (configText config) := by
  obtain ⟨before, after, rfl⟩ := List.append_of_mem h
  have hinfix : [entry] <:+: before ++ entry :: after := ⟨before, after, by simp⟩
  simpa [commas] using occurs_configText hinfix

/-- The lines of a block stand together among these, indented. -/
def Stands (lines block : List String) : Prop :=
  ∃ level, Writer.indentAll level block <:+: lines

theorem indent_indent (m n : Nat) (line : String) :
    Writer.indent m (Writer.indent n line) = Writer.indent (m + n) line := by
  unfold Writer.indent
  by_cases hline : line = ""
  . simp [hline]
  . have hblanks : String.ofList (List.replicate (2 * (m + n)) ' ') =
        String.ofList (List.replicate (2 * m) ' ') ++
          String.ofList (List.replicate (2 * n) ' ') := by
      rw [← String.ofList_append, List.replicate_append_replicate, Nat.mul_add]
    have hindented : String.ofList (List.replicate (2 * n) ' ') ++ line ≠ "" := by simp [hline]
    rw [if_neg hline, if_neg hindented, if_neg hline, hblanks, String.append_assoc]

namespace Stands

variable {lines more block inner : List String}

theorem of_part (h : block <:+: lines) : Stands lines block := by
  have hzero : ∀ line, Writer.indent 0 line = line := by simp [Writer.indent]
  have hblock : Writer.indentAll 0 block = block := by
    rw [Writer.indentAll, List.map_congr_left fun line _ => hzero line, List.map_id']
  exact ⟨0, hblock.symm ▸ h⟩

theorem indent (lines : List String) : Stands (Writer.indentAll 1 lines) lines :=
  ⟨1, List.infix_refl _⟩

theorem left (h : Stands lines block) : Stands (lines ++ more) block := by
  obtain ⟨level, h⟩ := h
  exact ⟨level, h.trans (List.prefix_append _ _).isInfix⟩

theorem right (h : Stands lines block) : Stands (more ++ lines) block := by
  obtain ⟨level, h⟩ := h
  exact ⟨level, h.trans (List.suffix_append _ _).isInfix⟩

theorem cons (h : Stands lines block) : Stands (line :: lines) block := by
  obtain ⟨level, h⟩ := h
  exact ⟨level, h.trans (List.suffix_cons _ _).isInfix⟩

theorem trans (h : Stands lines block) (h' : Stands block inner) : Stands lines inner := by
  obtain ⟨level, h⟩ := h
  obtain ⟨deeper, h'⟩ := h'
  refine ⟨level + deeper, List.IsInfix.trans ?_ h⟩
  have hmap := h'.map (Writer.indent level)
  simpa only [Writer.indentAll, List.map_map, Function.comp_def, indent_indent] using hmap

end Stands

/-- Some of these lines holds the text. -/
def Shows (lines : List String) (text : String) : Prop :=
  ∃ line ∈ lines, Occurs text line

theorem Shows.left (h : Shows lines text) : Shows (lines ++ more) text := by
  obtain ⟨line, hline, h⟩ := h
  exact ⟨line, List.mem_append_left _ hline, h⟩

theorem Shows.right (h : Shows lines text) : Shows (more ++ lines) text := by
  obtain ⟨line, hline, h⟩ := h
  exact ⟨line, List.mem_append_right _ hline, h⟩

theorem Shows.cons (h : Shows lines text) : Shows (first :: lines) text := by
  obtain ⟨line, hline, h⟩ := h
  exact ⟨line, List.mem_cons_of_mem _ hline, h⟩

theorem Shows.indent {lines : List String} (h : Shows lines text) :
    Shows (Writer.indentAll 1 lines) text := by
  obtain ⟨line, hline, h⟩ := h
  refine ⟨Writer.indent 1 line, List.mem_map_of_mem hline, h.trans ?_⟩
  unfold Writer.indent
  split
  . next hempty =>
    rw [hempty]
    exact occurs_empty _
  . exact ⟨_, "", by rw [String.append_empty]⟩

end Builder
end ComponentCompiler
