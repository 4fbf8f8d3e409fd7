/-!
# Scanners

A scanner that flex generates: at every place it takes the rule that matches the longest text, and
the earlier one of two that match the same. Where no rule matches, a byte is passed over.

A pattern is a row of byte classes, some of them repeated. A repetition takes as many bytes as it
can, so that the class behind it must have no byte in common with it.
-/

namespace CLib

/-- One byte of a class, any number of them, or at least one. -/
inductive PatternPart
  | one (p : UInt8 → Bool)
  | star (p : UInt8 → Bool)
  | plus (p : UInt8 → Bool)

abbrev Pattern := List PatternPart

/-- How many bytes at the front a pattern matches. -/
def Pattern.matchLength : Pattern → List UInt8 → Option Nat
  | [], _ => some 0
  | .one _ :: _, [] => none
  | .one p :: rest, c :: l => if p c then (matchLength rest l).map (· + 1) else none
  | .star p :: rest, l =>
    (matchLength rest (l.dropWhile p)).map (· + (l.takeWhile p).length)
  | .plus p :: rest, l =>
    if (l.takeWhile p).isEmpty then none
    else (matchLength rest (l.dropWhile p)).map (· + (l.takeWhile p).length)

/-- A rule of a scanner, with what it returns for the matched text, if anything. -/
structure ScanRule (α : Type) where
  pattern : Pattern
  action : List UInt8 → Option α

/-- The longest match at the front and what its rule returns; no rule matches the empty text. -/
def longestMatch {α : Type} : List (ScanRule α) → List UInt8 → Option (Nat × (List UInt8 → Option α))
  | [], _ => none
  | rule :: rules, l =>
    let others := longestMatch rules l
    match rule.pattern.matchLength l with
    | none | some 0 => others
    | some n =>
      match others with
      | none => some (n, rule.action)
      | some (m, action) => if n < m then some (m, action) else some (n, rule.action)

/-- The loop of the scanner, which takes at least one byte in every round. -/
def scanFrom {α : Type} (rules : List (ScanRule α)) : (rounds : Nat) → List UInt8 → List α
  | 0, _ => []
  | _ + 1, [] => []
  | rounds + 1, c :: l =>
    match longestMatch rules (c :: l) with
    | none => scanFrom rules rounds l
    | some (n, action) =>
      (action ((c :: l).take n)).toList ++ scanFrom rules rounds ((c :: l).drop n)

def scan {α : Type} (rules : List (ScanRule α)) (l : List UInt8) : List α :=
  scanFrom rules l.length l

end CLib
