/-!
# Splitting and joining

`splitOn` cuts a text at every occurrence of one character.  The pieces are
never fewer than one: a text without the character is its own single piece,
and the empty text is the single piece that is empty.  `join` puts pieces
together with a text between them.  `join_splitOn` says that joining with the
same character undoes the cut.
-/

namespace SchemaTypes.Text

/-- The pieces between the occurrences of a character. -/
def splitChars (sep : Char) : List Char → List (List Char)
  | [] => [[]]
  | c :: rest =>
      if c = sep then [] :: splitChars sep rest
      else
        match splitChars sep rest with
        | [] => [[c]]
        | piece :: pieces => (c :: piece) :: pieces

/-- The pieces of a text between the occurrences of a character. -/
def splitOn (sep : Char) (s : String) : List String :=
  (splitChars sep s.toList).map String.ofList

/-- The pieces with a text between each two of them. -/
def join (glue : String) : List String → String
  | [] => ""
  | [piece] => piece
  | piece :: rest => piece ++ glue ++ join glue rest

/-- The part of a text before the last occurrence of a character, and the part
after it. -/
def splitLast? (sep : Char) (s : String) : Option (String × String) :=
  match (splitOn sep s).reverse with
  | [] => none
  | [_] => none
  | last :: before => some (join (String.singleton sep) before.reverse, last)

/-- The text written a number of times. -/
def replicate (n : Nat) (s : String) : String := String.join (List.replicate n s)

/-! ## Joining undoes splitting -/

theorem splitChars_ne_nil (sep : Char) (cs : List Char) : splitChars sep cs ≠ [] := by
  cases cs with
  | nil => simp [splitChars]
  | cons c rest =>
    unfold splitChars
    split
    · simp
    · split <;> simp

/-- The pieces with one character between each two of them. -/
def joinChars (sep : Char) : List (List Char) → List Char
  | [] => []
  | [piece] => piece
  | piece :: rest => piece ++ sep :: joinChars sep rest

theorem joinChars_splitChars (sep : Char) (cs : List Char) :
    joinChars sep (splitChars sep cs) = cs := by
  induction cs with
  | nil => rfl
  | cons c rest ih =>
    unfold splitChars
    split
    · next h =>
      subst h
      cases hs : splitChars c rest with
      | nil => exact absurd hs (splitChars_ne_nil c rest)
      | cons piece pieces => rw [← ih, hs]; rfl
    · cases hs : splitChars sep rest with
      | nil => exact absurd hs (splitChars_ne_nil sep rest)
      | cons piece pieces =>
        rw [hs] at ih
        cases pieces with
        | nil => simpa [joinChars] using ih
        | cons _ _ => simpa [joinChars] using ih

theorem toList_join_singleton (sep : Char) (pieces : List (List Char)) :
    (join (String.singleton sep) (pieces.map String.ofList)).toList = joinChars sep pieces := by
  induction pieces with
  | nil => rfl
  | cons piece rest ih =>
    cases rest with
    | nil => simp [join, joinChars]
    | cons next rest => simpa [join, joinChars] using ih

theorem join_splitOn (sep : Char) (s : String) :
    join (String.singleton sep) (splitOn sep s) = s := by
  apply String.toList_inj.mp
  rw [splitOn, toList_join_singleton, joinChars_splitChars]

end SchemaTypes.Text
