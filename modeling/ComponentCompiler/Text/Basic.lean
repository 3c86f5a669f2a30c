/-!
This module contains white space, slices and line positions of source text. Offsets count
characters from 0, lines and columns count from 1, and only a line feed starts a new line.
-/

namespace ComponentCompiler
namespace Text

/-- White space of any script, the separators U+001C to U+001F included. -/
def isBlank (c : Char) : Bool :=
  let n := c.toNat
  (9 ≤ n && n ≤ 13) || (28 ≤ n && n ≤ 32) || n == 0x85 || n == 0xa0 || n == 0x1680 ||
    (0x2000 ≤ n && n ≤ 0x200a) || n == 0x2028 || n == 0x2029 || n == 0x202f || n == 0x205f ||
    n == 0x3000

theorem isBlank_newline : isBlank '\n' = true := by decide

def dropBlank (cs : List Char) : List Char :=
  cs.dropWhile isBlank

def dropBlankEnd (cs : List Char) : List Char :=
  (cs.reverse.dropWhile isBlank).reverse

theorem dropBlank_length_le (cs : List Char) : (dropBlank cs).length ≤ cs.length :=
  (List.dropWhile_sublist _).length_le

def trimStart (s : String) : String :=
  String.ofList (dropBlank s.toList)

def trimEnd (s : String) : String :=
  String.ofList (dropBlankEnd s.toList)

def trim (s : String) : String :=
  String.ofList (dropBlankEnd (dropBlank s.toList))

def allBlank (s : String) : Bool :=
  s.toList.all isBlank

/-- The characters from `start` up to `stop`; empty where the range is. -/
def slice (text : String) (start stop : Nat) : String :=
  String.ofList ((text.toList.drop start).take (stop - start))

/-- Line and column of an offset; an offset past the end lies on the last line. -/
def lineCol (text : List Char) (pos : Nat) : Nat × Nat :=
  go 1 1 text pos
where
  go (line column : Nat) : List Char → Nat → Nat × Nat
    | _, 0 => (line, column)
    | [], n + 1 => (line, column + (n + 1))
    | c :: cs, n + 1 => if c = '\n' then go (line + 1) 1 cs n else go line (column + 1) cs n

def splitOnP (sep : α → Bool) : List α → List (List α)
  | [] => [[]]
  | c :: cs =>
    if sep c then
      [] :: splitOnP sep cs
    else
      match splitOnP sep cs with
      | [] => [[c]]
      | part :: parts => (c :: part) :: parts

theorem mem_of_mem_splitOnP {sep : α → Bool} (items : List α) (h : part ∈ splitOnP sep items)
    (hm : item ∈ part) : item ∈ items := by
  induction items generalizing part with
  | nil =>
    simp [splitOnP] at h
    simp [h] at hm
  | cons head tail ih =>
    unfold splitOnP at h
    split at h
    . rcases List.mem_cons.mp h with h | h
      . simp [h] at hm
      . exact List.mem_cons_of_mem _ (ih h hm)
    . cases hs : splitOnP sep tail with
      | nil =>
        rw [hs] at h
        simp at h
        subst h
        simp_all
      | cons first parts =>
        rw [hs] at h
        rcases List.mem_cons.mp h with h | h
        . subst h
          rcases List.mem_cons.mp hm with hm | hm
          . simp [hm]
          . exact List.mem_cons_of_mem _ (ih (by simp [hs]) hm)
        . exact List.mem_cons_of_mem _ (ih (by simp [hs, h]) hm)

def lines (s : String) : List String :=
  (splitOnP (· == '\n') s.toList).map String.ofList

def contains (s : String) (c : Char) : Bool :=
  s.toList.contains c

def startsWith (s start : String) : Bool :=
  start.toList.isPrefixOf s.toList

def endsWith (s stop : String) : Bool :=
  stop.toList.isSuffixOf s.toList

end Text
end ComponentCompiler
