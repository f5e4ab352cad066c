import SchemaTypes.Proofs.Names.Bindable

/-!
# Variables of calls

An operation can be called with its parameters by position and by name.  The call by
position binds every parameter to its sanitized name.  The call by name takes an object
apart: a parameter that is named by an identifier is bound to this name, and any other one
to its sanitized name.

So the two calls bind the same variables, and ones that can be bound, unless a parameter is
named by a reserved word (`Step.signature_calls`).  A reserved word is an identifier, and the
call by name takes it as it is (`Step.lend_class`).
-/

namespace SchemaTypes

namespace Naming

/-! ## Latin names -/

/-- Whether a character is a Latin letter or digit, an underscore, a hyphen or a blank. -/
def isLatinPart (c : Char) : Bool := c.isAlphanum || c == '_' || c == '-' || c == ' '

/-- Whether a name consists of Latin letters and digits, underscores, hyphens and blanks. -/
def isLatin (name : String) : Bool := name != "" && name.toList.all isLatinPart

/-- The Latin letters are the first two ranges. -/
theorem isAlphabetic_eq (c : Char) : ∃ later : Bool, Text.isAlphabetic c =
    if c.toNat ≤ 0x5A then decide (0x41 ≤ c.toNat)
    else if c.toNat ≤ 0x7A then decide (0x61 ≤ c.toNat) else later := by
  obtain ⟨rest, hrest⟩ : ∃ rest, Text.alphabeticRanges = (0x41, 0x5A) :: (0x61, 0x7A) :: rest :=
    ⟨_, rfl⟩
  refine ⟨Text.CodeRanges.covers rest c.toNat, ?_⟩
  rw [Text.isAlphabetic, Text.CodeRanges.has, hrest, Text.CodeRanges.covers,
    Text.CodeRanges.covers]

theorem isAlphabetic_of_isAlpha {c : Char} (h : c.isAlpha = true) : Text.isAlphabetic c = true := by
  obtain ⟨later, hc⟩ := isAlphabetic_eq c
  rw [hc]
  rcases (Bool.or_eq_true _ _).mp h with hupper | hlower
  · obtain ⟨hfirst, hlast⟩ := of_decide_eq_true hupper
    have hfirst : 0x41 ≤ c.toNat := UInt32.le_iff_toNat_le.mp hfirst
    have hlast : c.toNat ≤ 0x5A := UInt32.le_iff_toNat_le.mp hlast
    rw [if_pos hlast, decide_eq_true hfirst]
  · obtain ⟨hfirst, hlast⟩ := (Bool.and_eq_true _ _).mp hlower
    have hfirst : 0x61 ≤ c.toNat := UInt32.le_iff_toNat_le.mp (of_decide_eq_true hfirst)
    have hlast : c.toNat ≤ 0x7A := UInt32.le_iff_toNat_le.mp (of_decide_eq_true hlast)
    rw [if_neg (by omega), if_pos hlast, decide_eq_true hfirst]

theorem isAlphabetic_of_isDigit {c : Char} (h : c.isDigit = true) :
    Text.isAlphabetic c = false := by
  obtain ⟨later, hc⟩ := isAlphabetic_eq c
  obtain ⟨hfirst, hlast⟩ := (Bool.and_eq_true _ _).mp h
  have hfirst : 0x30 ≤ c.toNat := UInt32.le_iff_toNat_le.mp (of_decide_eq_true hfirst)
  have hlast : c.toNat ≤ 0x39 := UInt32.le_iff_toNat_le.mp (of_decide_eq_true hlast)
  rw [hc, if_pos (by omega), decide_eq_false (by omega)]

/-- A Latin name starts safely. -/
theorem startsSafely_of_isLatin {name : String} (h : isLatin name = true) :
    startsSafely name = true := by
  rw [isLatin, Bool.and_eq_true] at h
  cases hname : name.toList with
  | nil => rw [startsSafely, hname]
  | cons c rest =>
    have hc : isLatinPart c = true := List.all_eq_true.mp h.2 c (by simp [hname])
    rw [startsSafely_of_cons hname]
    simp only [isLatinPart, Char.isAlphanum, Bool.or_eq_true, beq_iff_eq] at hc
    rcases hc with (((halpha | hdigit) | rfl) | rfl) | rfl
    · rw [isAlphabetic_of_isAlpha halpha, Bool.or_true, Bool.true_or]
    · rw [hdigit, Bool.or_true]
    · decide
    · decide
    · decide

/-! ## Names that stay as they are -/

theorem not_isDigit_of_start {c : Char} (h : isIdentifierStart c = true) : c.isDigit = false := by
  by_contra hdigit
  rw [Bool.not_eq_false] at hdigit
  rw [isIdentifierStart, isAlphabetic_of_isDigit hdigit] at h
  have hmark : c = '_' ∨ c = '$' := by simpa using h
  rcases hmark with rfl | rfl <;> cases hdigit

/-- A name is left as it is if it holds nothing but letters, digits and marks, does not start
with a Latin digit and is no reserved word. -/
theorem sanitize_of_parts {name : String} {c : Char} {rest : List Char}
    (hname : name.toList = c :: rest) (hparts : ∀ c ∈ name.toList, isIdentifierPart c = true)
    (hdigit : c.isDigit = false) (hreserved : isReserved name = false) : sanitize name = name := by
  have hsame : ∀ c ∈ name.toList, safeChar c = c := fun c hc => if_pos (hparts c hc)
  have hsafe : String.ofList (name.toList.map safeChar) = name := by
    rw [List.map_congr_left hsame, List.map_id', String.ofList_toList]
  have hnonempty : (name == "") = false := by
    rw [beq_eq_false_iff_ne]
    rintro rfl
    cases hname
  rw [sanitize_eq hsafe, hnonempty, startsWithDigit_of_cons hname, hdigit, hreserved,
    Bool.or_false, Bool.or_false, if_neg Bool.false_ne_true]

/-- A name that can be bound is left as it is. -/
theorem sanitize_of_isBindable {name : String} (h : isBindable name = true) :
    sanitize name = name := by
  rw [isBindable, Bool.and_eq_true, Bool.not_eq_true'] at h
  obtain ⟨c, rest, hname, hstart, -⟩ := exists_cons_of_isIdentifier h.1
  have hparts := List.all_eq_true.mp (all_isIdentifierPart h.1)
  exact sanitize_of_parts hname hparts (not_isDigit_of_start hstart) h.2

theorem isIdentifier_of_isReserved {name : String} (h : isReserved name = true) :
    isIdentifier name = true := by
  have hall : ∀ w ∈ reservedWords, isIdentifier w = true := by decide
  exact hall name (List.contains_iff_mem.mp h)

end Naming

/-! ## Calls -/

/-- The names of the parameters that are passed.  One whose type, or that of its items, stands
for the definition around the operation is not. -/
def Definition.passed (d : Definition) : List String :=
  ((d.params.getD []).filter fun (_, p) =>
    p.typeName? ≠ some Definition.selfName ∧
      ∀ item ∈ p.items, item.typeName? ≠ some Definition.selfName).map (·.1)

/-- A text binds a variable of a type. -/
def BindsTyped (text v : String) : Prop := ∃ type, text = v ++ ": " ++ type

/-- A text binds the property of an object: to a variable of its name, or to another one. -/
inductive BindsProperty (property : String) : String → String → Prop
  | shorthand : Naming.isIdentifier property = true → BindsProperty property property property
  | renamed (v : String) : BindsProperty property (Naming.quote property ++ ": " ++ v) v

/-- A call binds variables by position. -/
def BindsByPosition (call : String) (vs : List String) : Prop :=
  ∃ parts result, List.Forall₂ BindsTyped parts vs ∧
    call = "(" ++ Text.join ", " parts ++ "): " ++ result

/-- A call takes an object apart and binds its properties to variables. -/
def BindsByName (call : String) (bindings : List (String × String)) : Prop :=
  ∃ parts rest, List.Forall₂ (fun part b => BindsProperty b.1 part b.2) parts bindings ∧
    call = "(\x7b " ++ Text.join ", " parts ++ " \x7d: " ++ rest

namespace Signature

/-- The variable that the call by name binds a parameter to. -/
def variableOf (name : String) : String :=
  if Naming.isIdentifier name then name else Naming.sanitize name

theorem binding_binds (p : Parameter) : BindsProperty p.name (binding p) (variableOf p.name) := by
  rw [binding, variableOf]
  split
  · next h => exact .shorthand h
  · exact .renamed _

theorem positionalCall_binds (c : Config) (s : Signature) :
    BindsByPosition (s.positionalCall c) (s.parameters.map fun p => Naming.sanitize p.name) := by
  refine ⟨s.parameters.map (positional c), s.callResult c ++ ";", ?_, ?_⟩
  · rw [List.forall₂_map_left_iff, List.forall₂_map_right_iff, List.forall₂_same]
    exact fun p _ => ⟨p.typeText c, rfl⟩
  · rw [positionalCall, String.append_assoc]

theorem namedCall_binds (c : Config) (s : Signature) :
    BindsByName (s.namedCall c) (s.parameters.map fun p => (p.name, variableOf p.name)) := by
  refine ⟨s.parameters.map binding, s.parameterType c ++ "): " ++ s.callResult c ++ ";", ?_, ?_⟩
  · rw [List.forall₂_map_left_iff, List.forall₂_map_right_iff, List.forall₂_same]
    exact fun p _ => binding_binds p
  · simp only [namedCall, String.append_assoc]

/-- What the calls of an operation bind.  Every member that begins like a call is one of the
two. -/
structure Binds (c : Config) (s : Signature) (names : List String) : Prop where
  calls : ∀ line ∈ s.members c, line.toList.head? = some '(' →
    line = s.positionalCall c ∨ line = s.namedCall c
  byPosition : BindsByPosition (s.positionalCall c) (names.map Naming.sanitize)
  byName : BindsByName (s.namedCall c) (names.map fun name => (name, variableOf name))

theorem binds (c : Config) (s : Signature) : s.Binds c (s.parameters.map (·.name)) where
  calls line hline hhead := by
    simp only [members, List.mem_append, List.mem_ite_nil_left, List.mem_cons, List.not_mem_nil,
      or_false] at hline
    rcases hline with (⟨-, rfl⟩ | ⟨-, rfl⟩) | rfl | rfl | rfl
    · exact .inl rfl
    · exact .inr rfl
    · simp at hhead
    · simp at hhead
    · simp at hhead
  byPosition := by
    rw [List.map_map]
    exact s.positionalCall_binds c
  byName := by
    rw [List.map_map]
    exact s.namedCall_binds c

variable {name : String}

theorem isIdentifier_variableOf (h : Naming.isLatin name = true) :
    Naming.isIdentifier (variableOf name) = true := by
  rw [variableOf]
  split
  · assumption
  · have hbindable := Naming.isBindable_sanitize name
    rw [Naming.startsSafely_of_isLatin h, Naming.isBindable, Bool.and_eq_true] at hbindable
    exact hbindable.1

/-- Only a reserved word gives a variable that cannot be bound. -/
theorem isBindable_variableOf (h : Naming.isLatin name = true) :
    Naming.isBindable (variableOf name) = !Naming.isReserved name := by
  cases hidentifier : Naming.isIdentifier name with
  | true => rw [variableOf, if_pos hidentifier, Naming.isBindable, hidentifier, Bool.true_and]
  | false =>
    have hreserved : Naming.isReserved name = false := by
      by_contra hcontra
      rw [Bool.not_eq_false] at hcontra
      rw [Naming.isIdentifier_of_isReserved hcontra] at hidentifier
      cases hidentifier
    rw [variableOf, hidentifier, if_neg Bool.false_ne_true, Naming.isBindable_sanitize,
      Naming.startsSafely_of_isLatin h, hreserved]
    rfl

theorem variableOf_eq_iff (h : Naming.isLatin name = true) :
    variableOf name = Naming.sanitize name ↔ Naming.isReserved name = false := by
  constructor
  · intro heq
    have hbindable := isBindable_variableOf h
    rw [heq, Naming.isBindable_sanitize, Naming.startsSafely_of_isLatin h] at hbindable
    exact (Bool.not_eq_true' _).mp hbindable.symm
  · intro hreserved
    rw [variableOf]
    split
    · next hidentifier =>
      have hbindable : Naming.isBindable name = true := by
        rw [Naming.isBindable, hidentifier, hreserved]
        rfl
      exact (Naming.sanitize_of_isBindable hbindable).symm
    · rfl

end Signature

namespace Step

variable {m : Model} {home : Path} {operation : String} {s s' : Session}

/-- The parameters of a signature are those that are passed, in order. -/
theorem parameters_names :
    ∀ {params : Table Definition} {found : List Parameter} {s s' : Session},
      parameters m home operation params s = (.ok found, s') →
      found.map (·.name) = (params.filter fun (_, p) => !p.isSelfReference).map (·.1)
  | [], _, _, _, h => by
    obtain ⟨rfl, -⟩ := pure_eq_ok h
    rfl
  | (name, element) :: rest, _, _, _, h => by
    rcases parameters_cons_eq_ok h with ⟨hself, h⟩ | ⟨hself, type, t, others, -, hothers, rfl⟩
    · rw [parameters_names h, List.filter_cons_of_neg (by simp [hself])]
    · rw [List.filter_cons_of_pos (by simp [hself]), List.map_cons, List.map_cons,
        parameters_names hothers]

theorem passed_eq (d : Definition) : d.passed =
    ((d.params.getD []).filter fun (_, p) => !p.isSelfReference).map (·.1) := by
  rw [Definition.passed]
  congr 2
  funext ⟨_, p⟩
  cases hitems : p.items <;> simp [Definition.isSelfReference, hitems, beq_eq_decide]

/-- Both calls of an operation bind the parameters that are passed, in order.  By position all
variables can be bound.  By name they are identifiers, and those that are reserved words are
the only ones that cannot be bound and the only ones that differ. -/
theorem signature_calls {entity? : Option String} {d : Definition} {found : Signature}
    (h : signature m home operation entity? d s = (.ok found, s'))
    (hlatin : ∀ name ∈ d.passed, Naming.isLatin name = true) (c : Config) :
    found.Binds c d.passed ∧
      (∀ v ∈ d.passed.map Naming.sanitize, Naming.isBindable v = true) ∧
      (∀ v ∈ d.passed.map Signature.variableOf, Naming.isIdentifier v = true) ∧
      ((∀ v ∈ d.passed.map Signature.variableOf, Naming.isBindable v = true) ↔
        ∀ name ∈ d.passed, Naming.isReserved name = false) ∧
      (d.passed.map Signature.variableOf = d.passed.map Naming.sanitize ↔
        ∀ name ∈ d.passed, Naming.isReserved name = false) := by
  obtain ⟨parameters, t, result, hparameters, -, rfl⟩ := signature_eq_ok h
  have hnames : parameters.map (·.name) = d.passed :=
    (parameters_names hparameters).trans (passed_eq d).symm
  refine ⟨hnames ▸ Signature.binds c _, ?_, ?_, ?_, ?_⟩
  · simp only [List.forall_mem_map, Naming.isBindable_sanitize]
    exact fun name hname => Naming.startsSafely_of_isLatin (hlatin name hname)
  · simp only [List.forall_mem_map]
    exact fun name hname => Signature.isIdentifier_variableOf (hlatin name hname)
  · rw [List.forall_mem_map]
    refine forall₂_congr fun name hname => ?_
    rw [Signature.isBindable_variableOf (hlatin name hname), Bool.not_eq_true']
  · rw [List.map_inj_left]
    exact forall₂_congr fun name hname => Signature.variableOf_eq_iff (hlatin name hname)

/-- The operation of a book by which some copies of it are set aside. -/
def reserve : Definition where
  kind := some .action
  params := some
    [("self", { type := some (.name "$self") }),
      ("copy-count", { type := some (.name "cds.Integer"), notNull := true }),
      ("until", { type := some (.name "cds.Date") })]

/-- The books that the operation is bound to. -/
def reservable : Model where
  definitions :=
    [("shop.Books", {
        kind := some .entity
        elements := some [("ID", { type := some (.name "cds.UUID"), key := true })]
        actions := some [("reserve", reserve)] })]

/-- The copies and the date are bound to the same variables by both calls. -/
theorem signature_calls_reserve :
    ∃ found s', signature reservable ⟨["shop"]⟩ "reserve" (some "shop.Books") reserve {} =
        (.ok found, s') ∧
      found.Binds {} ["copy-count", "until"] ∧
      ["copy-count", "until"].map Signature.variableOf = ["copy_count", "until"] ∧
      ∀ v ∈ ["copy-count", "until"].map Naming.sanitize, Naming.isBindable v = true := by
  have hpassed : reserve.passed = ["copy-count", "until"] := by decide +kernel
  obtain ⟨found, hfound⟩ := Except.exists_eq_ok
    (x := (signature reservable ⟨["shop"]⟩ "reserve" (some "shop.Books") reserve {}).1)
    (by decide +kernel)
  have hlatin : ∀ name ∈ reserve.passed, Naming.isLatin name = true := by decide +kernel
  obtain ⟨hbinds, hbindable, -, -, halike⟩ := signature_calls (Prod.ext hfound rfl) hlatin {}
  rw [hpassed] at hbinds hbindable halike
  refine ⟨found, _, Prod.ext hfound rfl, hbinds, ?_, hbindable⟩
  rw [halike.mpr (by decide +kernel)]
  decide +kernel

/-- An operation with a parameter that is named by a reserved word. -/
def lend : Definition where
  kind := some .action
  params := some
    [("class", { type := some (.name "cds.String") }),
      ("book-id", { type := some (.name "cds.UUID") })]

/-- The operation alone. -/
def lending : Model where
  definitions := [("shop.lend", lend)]

/-- The call by position binds another variable, while the call by name binds the reserved
word. -/
theorem lend_class :
    ∃ found s', signature lending ⟨["shop"]⟩ "lend" none lend {} = (.ok found, s') ∧
      (∀ name ∈ lend.passed, Naming.isLatin name = true) ∧
      found.positionalCall {} =
        "(_class: string | null, book_id: string | null): void | Promise<void>;" ∧
      found.namedCall {} = "(\x7b class, 'book-id': book_id \x7d: " ++
        "\x7b class?: string | null; 'book-id'?: string | null \x7d): void | Promise<void>;" ∧
      BindsByPosition (found.positionalCall {}) ["_class", "book_id"] ∧
      BindsByName (found.namedCall {}) [("class", "class"), ("book-id", "book_id")] ∧
      Naming.isReserved "class" = true ∧ Naming.isBindable "class" = false := by
  have hcalls : ((signature lending ⟨["shop"]⟩ "lend" none lend {}).1.toOption.map fun found =>
      (found.parameters.map (·.name), found.positionalCall {}, found.namedCall {})) =
      some (["class", "book-id"],
        "(_class: string | null, book_id: string | null): void | Promise<void>;",
        "(\x7b class, 'book-id': book_id \x7d: " ++
        "\x7b class?: string | null; 'book-id'?: string | null \x7d): void | Promise<void>;") := by
    decide +kernel
  obtain ⟨found, hfound⟩ := Except.exists_eq_ok
    (x := (signature lending ⟨["shop"]⟩ "lend" none lend {}).1) (by decide +kernel)
  rw [hfound] at hcalls
  simp only [Except.toOption, Option.map_some, Option.some.injEq, Prod.mk.injEq] at hcalls
  obtain ⟨hnames, hpositional, hnamed⟩ := hcalls
  have hbinds := Signature.binds {} found
  rw [hnames] at hbinds
  have hsanitized : ["class", "book-id"].map Naming.sanitize = ["_class", "book_id"] := by
    decide +kernel
  have hbindings : ["class", "book-id"].map (fun name => (name, Signature.variableOf name)) =
      [("class", "class"), ("book-id", "book_id")] := by
    decide +kernel
  refine ⟨found, _, Prod.ext hfound rfl, by decide +kernel, hpositional, hnamed, ?_, ?_,
    by decide, by decide +kernel⟩
  · rw [← hsanitized]
    exact hbinds.byPosition
  · rw [← hbindings]
    exact hbinds.byName

end Step

end SchemaTypes
