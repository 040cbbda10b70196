/-!
# Finding text in text
-/

namespace EventTree.Text

/-- Whether `piece` stands somewhere in a list of characters. -/
def occursIn (piece : List Char) : List Char → Bool
  | [] => piece.isEmpty
  | c :: cs => piece.isPrefixOf (c :: cs) || occursIn piece cs

/-- Whether a text contains another; every text contains the empty one. -/
def contains (text piece : String) : Bool := occursIn piece.toList text.toList

end EventTree.Text
