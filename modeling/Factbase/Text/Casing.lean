import Factbase.Text.CaseTable

/-!
# Letter case

Full Unicode case conversion of texts. A character may become several;
a capital sigma becomes the final form `ς` exactly when a cased letter
stands before it and none after it, characters such as apostrophes being
passed over on both sides.
-/

namespace Factbase

/-- The image of one character under a table of expansions and runs. -/
def caseImage (expansions : List (Nat × List Nat)) (runs : List CaseRun) (c : Char) : List Char :=
  match expansions.lookup c.toNat with
  | some image => image.map Char.ofNat
  | none => [Char.ofNat ((runs.findSome? (·.image? c.toNat)).getD c.toNat)]

/-- Whether the next letter, past the characters that do not count, has case. -/
def casedNext (cs : List Char) : Bool :=
  match cs.dropWhile fun c => inRanges caseIgnorable c.toNat with
  | [] => false
  | c :: _ => inRanges cased c.toNat

/-- Lower case of the second list, which stands after `before` (nearest first). -/
def lowerFrom (before : List Char) : List Char → List Char
  | [] => []
  | c :: rest =>
    let image :=
      if c = 'Σ' then
        if casedNext before && !casedNext rest then ['ς'] else ['σ']
      else caseImage lowerExpansions lowerRuns c
    image ++ lowerFrom (c :: before) rest

/-- The text in lower case. -/
def lowerCase (s : String) : String := String.ofList (lowerFrom [] s.toList)

/-- The text in upper case. -/
def upperCase (s : String) : String :=
  String.ofList (s.toList.flatMap (caseImage upperExpansions upperRuns))

end Factbase
