import SchemaTypes.Naming.Identifier

/-!
# Reading string literals

In the generated language a string is a sequence of UTF-16 code units, and a
string literal stands for one.  `Literal.read?` reads a literal in single
quotes, one character after the other, by the rules of that language in strict
code.  A backslash starts an escape: of a control character, of digits in
base 16, of the end of a line, or of any other character for itself.  A line
feed or a carriage return cannot stand in a literal.

`Naming.quote` escapes backslashes and single quotes only.  That is enough for
every text without a line feed and a carriage return: its literal is read as
the text, up to the last quote and not beyond (`Literal.read?_quote`).  The
literal of any other text is none.
-/

namespace SchemaTypes.Literal

/-! ## Code units -/

/-- The code units of a code point. -/
def codeUnits (n : Nat) : List Nat :=
  if n < 0x10000 then [n]
  else [0xD800 + (n - 0x10000) / 0x400, 0xDC00 + (n - 0x10000) % 0x400]

/-- The string of a text. -/
def stringOf (text : String) : List Nat := text.toList.flatMap fun c => codeUnits c.toNat

/-- The first character of a text is told by its code units, since no character
is half of a pair. -/
theorem eq_of_codeUnits_append {c c' : Char} {rest rest' : List Nat}
    (h : codeUnits c.toNat ++ rest = codeUnits c'.toNat ++ rest') : c = c' ∧ rest = rest' := by
  have hvalid : ∀ c : Char, c.toNat < 0xD800 ∨ 0xDFFF < c.toNat ∧ c.toNat < 0x110000 :=
    fun c => c.valid
  have hc := hvalid c
  have hc' := hvalid c'
  have hchar : c.toNat = c'.toNat → c = c' := Char.toNat_inj.mp
  simp only [codeUnits] at h
  split at h <;> split at h <;>
    simp only [List.cons_append, List.nil_append, List.cons.injEq] at h
  · exact ⟨hchar h.1, h.2⟩
  · omega
  · omega
  · exact ⟨hchar (by omega), h.2.2⟩

/-- Different texts are different strings. -/
theorem stringOf_injective : Function.Injective stringOf := by
  have hlists : ∀ cs cs' : List Char, (cs.flatMap fun c => codeUnits c.toNat) =
      (cs'.flatMap fun c => codeUnits c.toNat) → cs = cs' := by
    have hne : ∀ c : Char, codeUnits c.toNat ≠ [] := by
      intro c
      rw [codeUnits]
      split <;> simp
    intro cs
    induction cs with
    | nil =>
      intro cs' h
      cases cs' with
      | nil => rfl
      | cons c' rest' =>
        rw [List.flatMap_nil, List.flatMap_cons] at h
        exact absurd (List.append_eq_nil_iff.mp h.symm).1 (hne c')
    | cons c rest ih =>
      intro cs' h
      cases cs' with
      | nil =>
        rw [List.flatMap_nil, List.flatMap_cons] at h
        exact absurd (List.append_eq_nil_iff.mp h).1 (hne c)
      | cons c' rest' =>
        rw [List.flatMap_cons, List.flatMap_cons] at h
        obtain ⟨rfl, hrest⟩ := eq_of_codeUnits_append h
        rw [ih rest' hrest]
  intro s t h
  exact String.toList_inj.mp (hlists _ _ h)

/-! ## The reader -/

/-- Where the reader is in a literal. -/
inductive Position
  /-- Between two characters. -/
  | plain
  /-- After a backslash. -/
  | escape
  /-- After the escape of a zero, which no digit can follow. -/
  | zero
  /-- After a carriage return that is escaped.  A line feed is part of it. -/
  | lineEnd
  /-- Before the digits of a code unit: how many follow the next one, and the value so
  far. -/
  | digits (more : Nat) (value : Nat)
  /-- After the letter that starts a code point. -/
  | unicode
  /-- Inside the braces of a code point, with the value of its digits so far. -/
  | braces (value : Option Nat)
deriving DecidableEq, Repr

/-- Whether a quote ends the literal here. -/
def Position.mayEnd : Position → Bool
  | .plain | .zero | .lineEnd => true
  | _ => false

/-- The value of a digit in base 16. -/
def hexDigit? (c : Char) : Option Nat :=
  if '0' ≤ c ∧ c ≤ '9' then some (c.toNat - '0'.toNat)
  else if 'a' ≤ c ∧ c ≤ 'f' then some (c.toNat - 'a'.toNat + 10)
  else if 'A' ≤ c ∧ c ≤ 'F' then some (c.toNat - 'A'.toNat + 10)
  else none

/-- The control character that a letter stands for. -/
def control? : Char → Option Nat
  | 'b' => some 8
  | 't' => some 9
  | 'n' => some 10
  | 'v' => some 11
  | 'f' => some 12
  | 'r' => some 13
  | _ => none

/-- Reads a character that stands for itself or starts an escape. -/
def stepPlain (c : Char) : Option (Position × List Nat) :=
  if c = '\\' then some (.escape, [])
  else if c = '\n' ∨ c = '\r' then none
  else some (.plain, codeUnits c.toNat)

/-- Reads the character after a backslash. -/
def stepEscape (c : Char) : Option (Position × List Nat) :=
  if c = '\r' then some (.lineEnd, [])
  else if c = '\n' ∨ c = '\u2028' ∨ c = '\u2029' then some (.plain, [])
  else if c = 'x' then some (.digits 1 0, [])
  else if c = 'u' then some (.unicode, [])
  else if c = '0' then some (.zero, [0])
  else if c.isDigit then none
  else some (.plain, ((control? c).map fun n => [n]).getD (codeUnits c.toNat))

/-- Reads a character that does not end the literal: where the reader is then, and
what is added to the string. -/
def step : Position → Char → Option (Position × List Nat)
  | .plain, c => stepPlain c
  | .escape, c => stepEscape c
  | .zero, c => if c.isDigit then none else stepPlain c
  | .lineEnd, c => if c = '\n' then some (.plain, []) else stepPlain c
  | .digits more value, c =>
      (hexDigit? c).map fun d =>
        match more with
        | 0 => (.plain, [16 * value + d])
        | more + 1 => (.digits more (16 * value + d), [])
  | .unicode, c =>
      if c = '{' then some (.braces none, []) else (hexDigit? c).map fun d => (.digits 2 d, [])
  | .braces value, c =>
      if c = '}' then value.map fun n => (.plain, codeUnits n)
      else
        match hexDigit? c with
        | none => none
        | some d =>
            if 16 * value.getD 0 + d < 0x110000 then
              some (.braces (some (16 * value.getD 0 + d)), [])
            else none

/-- Reads up to the quote that ends a literal: the string, and what follows. -/
def scan : Position → List Char → Option (List Nat × List Char)
  | _, [] => none
  | p, c :: rest =>
      if c = '\'' ∧ p.mayEnd then some ([], rest)
      else
        match step p c with
        | none => none
        | some (q, units) => (scan q rest).map fun r => (units ++ r.1, r.2)

/-- Reads a literal: the string it stands for, and what follows it. -/
def read? : List Char → Option (List Nat × List Char)
  | '\'' :: rest => scan .plain rest
  | _ => none

example : read? ['\'', 'a', '\\', 'n', '\\', 'x', '4', '1', '\''] = some ([97, 10, 65], []) := by
  decide +kernel

/-! ## Literals that are written -/

/-- Whether a literal can hold a character as it is written. -/
def holds (c : Char) : Bool := c != '\n' && c != '\r'

/-- What is written for a character is read as the character. -/
theorem scan_escape {c : Char} (h : holds c = true) (rest : List Char) :
    scan .plain (Naming.escape c ++ rest) =
      (scan .plain rest).map fun r => (codeUnits c.toNat ++ r.1, r.2) := by
  obtain ⟨hfeed, hreturn⟩ : c ≠ '\n' ∧ c ≠ '\r' := by simpa [holds] using h
  by_cases hback : c = '\\'
  · subst hback
    simp [Naming.escape, scan, step, stepPlain, stepEscape, control?, Position.mayEnd,
      Function.comp_def]
  · by_cases hquote : c = '\''
    · subst hquote
      simp [Naming.escape, scan, step, stepPlain, stepEscape, control?, Position.mayEnd,
        Function.comp_def]
    · simp [Naming.escape, scan, step, stepPlain, hback, hquote, hfeed, hreturn]

/-- A literal ends before a line feed or a carriage return, and then it is none. -/
theorem scan_break {c : Char} (h : holds c = false) (rest : List Char) :
    scan .plain (Naming.escape c ++ rest) = none := by
  have hc : c = '\n' ∨ c = '\r' := by
    simpa only [holds, Bool.and_eq_false_iff, bne_eq_false_iff_eq] using h
  rcases hc with rfl | rfl <;> simp [Naming.escape, scan, step, stepPlain]

/-- The literal of a text is read as the text, and what follows it is left, whatever
that is.  The literal of a text with a line feed or a carriage return is none. -/
theorem read?_quote (text : String) (rest : List Char) :
    read? ((Naming.quote text).toList ++ rest) =
      if text.toList.all holds then some (stringOf text, rest) else none := by
  have hscan : ∀ cs : List Char, scan .plain (cs.flatMap Naming.escape ++ '\'' :: rest) =
      if cs.all holds then some (cs.flatMap fun c => codeUnits c.toNat, rest) else none := by
    intro cs
    induction cs with
    | nil => simp [scan, Position.mayEnd]
    | cons c cs ih =>
      rw [List.flatMap_cons, List.append_assoc]
      cases hc : holds c with
      | true =>
        rw [scan_escape hc, ih]
        simp only [List.all_cons, hc, Bool.true_and, List.flatMap_cons]
        split <;> rfl
      | false => simp [scan_break hc, hc]
  simpa [Naming.quote, read?, stringOf] using hscan text.toList

end SchemaTypes.Literal
