import SchemaTypes.Proofs.Access.References
import SchemaTypes.Proofs.Name

/-!
# Dotted type names

The type of an element may be written as a name that goes on after a definition, as
`bookshop.Books.author.name` does.  The longest definition that the name starts with is
taken (`Model.LongestStart`), and the segments after it walk from element to element,
through structures and to the targets of associations (`Model.Denotes`).

A walk goes on as long as the segments are elements, and it is kept where it does not
reach the last one (`Model.LongestWalk`).  So a name is resolved to the walk that it
starts with, which is the whole of it exactly if every segment is an element
(`Model.resolveWithin_dotted`).  A name is looked up in the libraries and refused only
where not even the first segment is an element: a name that fails later on is taken for
something shorter (`Model.resolve_nope`).
-/

namespace SchemaTypes

namespace Model

variable {m : Model}

/-! ## Walks over elements -/

/-- Segments walk from a definition to an element.  Each of them is an element, inherited
or own, of what the one before leads to. -/
inductive Denotes (m : Model) : Definition → List String → Definition → Prop
  | element {d leaf : Definition} {segment : String} :
      (m.allElements d).get? segment = some leaf → Denotes m d [segment] leaf
  | step {d element leaf : Definition} {segment : String} {rest : List String} :
      (m.allElements d).get? segment = some element → Denotes m (m.stepInto element) rest leaf →
        Denotes m d (segment :: rest) leaf

/-- What segments walk to is one element. -/
theorem Denotes.unique {d leaf leaf' : Definition} {path : List String}
    (h : m.Denotes d path leaf) (h' : m.Denotes d path leaf') : leaf = leaf' := by
  induction h with
  | element hleaf =>
    cases h' with
    | element hleaf' => exact Option.some.inj (hleaf.symm.trans hleaf')
    | step _ hrest => cases hrest
  | step helement hrest ih =>
    cases h' with
    | element _ => cases hrest
    | step helement' hrest' =>
      obtain rfl := Option.some.inj (helement.symm.trans helement')
      exact ih hrest'

theorem Denotes.first {d leaf : Definition} {segment : String} {rest : List String}
    (h : m.Denotes d (segment :: rest) leaf) :
    ∃ element, (m.allElements d).get? segment = some element := by
  cases h with
  | element hleaf => exact ⟨leaf, hleaf⟩
  | step helement _ => exact ⟨_, helement⟩

/-- A walk along segments that goes as far as there are elements. -/
structure LongestWalk (m : Model) (d : Definition) (segments access : List String) : Prop where
  starts : access <+: segments
  denotes : ∃ leaf, m.Denotes d access leaf
  longest : ∀ {more leaf}, more <+: segments → m.Denotes d more leaf → more <+: access

/-- The walk covers all segments exactly if all of them are elements. -/
theorem LongestWalk.eq_iff {d : Definition} {segments access : List String}
    (h : m.LongestWalk d segments access) :
    access = segments ↔ ∃ leaf, m.Denotes d segments leaf := by
  constructor
  · rintro rfl
    exact h.denotes
  · rintro ⟨leaf, hleaf⟩
    have hmore := h.longest List.prefix_rfl hleaf
    exact h.starts.eq_of_length (Nat.le_antisymm h.starts.length_le hmore.length_le)

theorem elementPath_starts {d : Definition} {segments : List String} :
    m.elementPath d segments <+: segments := by
  induction segments generalizing d with
  | nil => exact List.prefix_rfl
  | cons segment rest ih =>
    rw [elementPath]
    split
    · exact List.nil_prefix
    · exact (List.prefix_cons_inj segment).mpr ih

theorem elementPath_denotes {d : Definition} {segments : List String}
    (hne : m.elementPath d segments ≠ []) :
    ∃ leaf, m.Denotes d (m.elementPath d segments) leaf := by
  induction segments generalizing d with
  | nil => exact absurd rfl hne
  | cons segment rest ih =>
    rw [elementPath] at hne ⊢
    cases helement : (m.allElements d).get? segment with
    | none => simp [helement] at hne
    | some element =>
      simp only
      by_cases hrest : m.elementPath (m.stepInto element) rest = []
      · rw [hrest]
        exact ⟨element, .element helement⟩
      · obtain ⟨leaf, hleaf⟩ := ih hrest
        exact ⟨leaf, .step helement hleaf⟩

theorem Denotes.starts_elementPath {d leaf : Definition} {path segments : List String}
    (h : m.Denotes d path leaf) (hpath : path <+: segments) :
    path <+: m.elementPath d segments := by
  induction h generalizing segments with
  | element hleaf =>
    obtain ⟨rest, rfl⟩ := hpath
    rw [List.singleton_append, elementPath, hleaf]
    exact (List.prefix_cons_inj _).mpr List.nil_prefix
  | step helement _ ih =>
    obtain ⟨rest, rfl⟩ := hpath
    rw [List.cons_append, elementPath, helement]
    exact (List.prefix_cons_inj _).mpr (ih (List.prefix_append _ _))

theorem elementPath_longest {d : Definition} {segments : List String}
    (hne : m.elementPath d segments ≠ []) :
    m.LongestWalk d segments (m.elementPath d segments) where
  starts := elementPath_starts
  denotes := elementPath_denotes hne
  longest hmore hleaf := hleaf.starts_elementPath hmore

/-! ## The longest definition in a name -/

/-- The segments of the longest definition that a name starts with, and those after it. -/
structure LongestStart (m : Model) (name : String) (defined trailing : List String) : Prop where
  segments : Text.splitOn '.' name = defined ++ trailing
  nonempty : defined ≠ []
  defines : m.defines (Text.join "." defined) = true
  longest : ∀ {longer rest}, Text.splitOn '.' name = longer ++ rest →
    m.defines (Text.join "." longer) = true → longer.length ≤ defined.length

theorem LongestStart.unique {name : String} {defined trailing defined' trailing' : List String}
    (h : m.LongestStart name defined trailing) (h' : m.LongestStart name defined' trailing') :
    defined = defined' ∧ trailing = trailing' := by
  have hlength :=
    Nat.le_antisymm (h'.longest h.segments h.defines) (h.longest h'.segments h'.defines)
  exact List.append_inj (h.segments.symm.trans h'.segments) hlength

theorem definedLength?_eq_some {taken rest : List String} {bound n : Nat}
    (h : m.definedLength? taken rest bound = some n) :
    0 < n ∧ n ≤ bound ∧ m.defines (Text.join "." (taken ++ rest.take n)) = true ∧
      ∀ k, n < k → k ≤ bound → m.defines (Text.join "." (taken ++ rest.take k)) = false := by
  induction bound with
  | zero => cases h
  | succ bound ih =>
    rw [definedLength?] at h
    split at h
    · next hdefines =>
      cases h
      exact ⟨Nat.succ_pos bound, Nat.le_refl _, hdefines, fun k hlt hle => by omega⟩
    · next hdefines =>
      obtain ⟨hpos, hle, hn, hlonger⟩ := ih h
      refine ⟨hpos, Nat.le_succ_of_le hle, hn, fun k hlt hk => ?_⟩
      rcases Nat.eq_or_lt_of_le hk with rfl | hk
      · simpa using hdefines
      · exact hlonger k hlt (Nat.lt_succ_iff.mp hk)

theorem definedLength?_eq_none {taken rest : List String} {bound : Nat}
    (h : m.definedLength? taken rest bound = none) {k : Nat} (hpos : 0 < k) (hk : k ≤ bound) :
    m.defines (Text.join "." (taken ++ rest.take k)) = false := by
  induction bound with
  | zero => omega
  | succ bound ih =>
    rw [definedLength?] at h
    split at h
    · cases h
    · next hdefines =>
      rcases Nat.eq_or_lt_of_le hk with rfl | hk
      · simpa using hdefines
      · exact ih h (Nat.lt_succ_iff.mp hk)

/-- A namespace goes on after everything it starts with. -/
theorem continuesNamespace_of_starts {taken segments front : List String}
    (hfront : front <+: (m.splitNamespace taken segments).1)
    (hlength : taken.length < front.length) : m.continuesNamespace front = true := by
  induction segments generalizing taken with
  | nil => exact absurd hfront.length_le (Nat.not_le_of_lt hlength)
  | cons segment rest ih =>
    cases rest with
    | nil => exact absurd hfront.length_le (Nat.not_le_of_lt hlength)
    | cons next rest =>
      rw [splitNamespace] at hfront
      split at hfront
      · next hcontinues =>
        have htaken :
            taken ++ [segment] <+: (m.splitNamespace (taken ++ [segment]) (next :: rest)).1 :=
          starts_splitNamespace
        by_cases hlonger : (taken ++ [segment]).length < front.length
        · exact ih hfront hlonger
        · have hlength' : (taken ++ [segment]).length = front.length := by
            simp only [List.length_append, List.length_singleton] at hlonger ⊢
            omega
          rwa [← (List.prefix_of_prefix_length_le htaken hfront hlength'.le).eq_of_length hlength']
      · exact absurd hfront.length_le (Nat.not_le_of_lt hlength)

section Start

variable {name : String} {space rest : List String}

/-- A front that is longer than a namespace takes some of the segments after it. -/
theorem exists_take {front after : List String} (h : space ++ rest = front ++ after)
    (hlength : space.length ≤ front.length) :
    ∃ k ≤ rest.length, front.length = space.length + k ∧ front = space ++ rest.take k := by
  have htotal : space.length + rest.length = front.length + after.length := by
    rw [← List.length_append, h, List.length_append]
  have htaken : (space ++ rest).take front.length = front := by rw [h, List.take_left]
  refine ⟨front.length - space.length, by omega, by omega, ?_⟩
  rw [List.take_append, List.take_of_length_le hlength] at htaken
  exact htaken.symm

/-- The parts of a name with a definition after the namespace. -/
theorem nameParts_of_definedLength? {n : Nat}
    (hsplit : m.splitNamespace [] (Text.splitOn '.' name) = (space, rest))
    (hn : m.definedLength? space rest rest.length = some n) :
    ∃ d, m.find? (Text.join "." (space ++ rest.take n)) = some d ∧
      m.LongestStart name (space ++ rest.take n) (rest.drop n) ∧
      (m.nameParts name).definitionName = Text.join "." (space ++ rest.take n) ∧
      (m.nameParts name).access = m.elementPath d (rest.drop n) := by
  obtain ⟨hpos, hle, hdefines, hlonger⟩ := definedLength?_eq_some hn
  obtain ⟨d, hd⟩ := Option.isSome_iff_exists.mp hdefines
  have happend : space ++ rest = Text.splitOn '.' name := by
    simpa [hsplit] using m.splitNamespace_append (Text.splitOn '.' name) []
  have htake : rest.take n ≠ [] := by
    rw [Ne, List.take_eq_nil_iff]
    rintro (rfl | rfl)
    · exact absurd hpos (Nat.lt_irrefl 0)
    · exact absurd (hpos.trans_le hle) (Nat.lt_irrefl 0)
  refine ⟨d, hd, ⟨?_, by simp [htake], hdefines, fun {longer after} hsegments hlong => ?_⟩, ?_, ?_⟩
  · rw [List.append_assoc, List.take_append_drop, happend]
  · by_contra hlength
    rw [List.length_append, List.length_take, Nat.min_eq_left hle] at hlength
    -- What is longer goes on after the namespace, so the search came to it before.
    obtain ⟨k, hk, hsum, hfront⟩ := exists_take (happend.trans hsegments) (by omega)
    rw [hfront, hlonger k (by omega) hk] at hlong
    cases hlong
  · rw [nameParts, NameParts.definitionName]
    simp only [hsplit, hn, Option.getD_some]
    rw [List.append_assoc, scopeAndName_append htake]
  · rw [nameParts]
    simp only [hsplit, hn, accessPath, hd]

theorem nameParts_access_nil
    (hsplit : m.splitNamespace [] (Text.splitOn '.' name) = (space, rest))
    (hn : m.definedLength? space rest rest.length = none) : (m.nameParts name).access = [] := by
  rw [nameParts]
  simp only [hsplit, hn]

/-- Elements are walked through from the longest definition of the name. -/
theorem nameParts_access (hne : (m.nameParts name).access ≠ []) :
    ∃ defined trailing d, m.LongestStart name defined trailing ∧
      m.find? (Text.join "." defined) = some d ∧
      (m.nameParts name).definitionName = Text.join "." defined ∧
      m.LongestWalk d trailing (m.nameParts name).access := by
  rcases hsplit : m.splitNamespace [] (Text.splitOn '.' name) with ⟨space, rest⟩
  cases hn : m.definedLength? space rest rest.length with
  | none => exact absurd (nameParts_access_nil hsplit hn) hne
  | some n =>
    obtain ⟨d, hd, hstart, hname, haccess⟩ := nameParts_of_definedLength? hsplit hn
    rw [haccess] at hne ⊢
    exact ⟨_, _, d, hstart, hd, hname, elementPath_longest hne⟩

/-- A definition that no namespace goes on after is found where it is the longest one. -/
theorem LongestStart.nameParts {defined trailing : List String} {d : Definition}
    (h : m.LongestStart name defined trailing) (hd : m.find? (Text.join "." defined) = some d)
    (hstops : m.continuesNamespace defined = false) :
    (m.nameParts name).definitionName = Text.join "." defined ∧
      (m.nameParts name).access = m.elementPath d trailing := by
  rcases hsplit : m.splitNamespace [] (Text.splitOn '.' name) with ⟨space, rest⟩
  have happend : space ++ rest = defined ++ trailing := by
    rw [← h.segments]
    simpa [hsplit] using m.splitNamespace_append (Text.splitOn '.' name) []
  cases hn : m.definedLength? space rest rest.length with
  | some n =>
    obtain ⟨d', hd', hstart, hname, haccess⟩ := nameParts_of_definedLength? hsplit hn
    obtain ⟨rfl, rfl⟩ := h.unique hstart
    obtain rfl := eq_of_find? hd hd'
    exact ⟨hname, haccess⟩
  | none =>
    exfalso
    rcases Nat.lt_or_ge space.length defined.length with hlonger | hshorter
    · obtain ⟨k, hk, hsum, hfront⟩ := exists_take happend hlonger.le
      have hdefines := h.defines
      rw [hfront, definedLength?_eq_none hn (by omega) hk] at hdefines
      cases hdefines
    · have hfront : defined <+: space :=
        List.prefix_of_prefix_length_le (List.prefix_append defined trailing)
          (happend ▸ List.prefix_append space rest) hshorter
      have hcontinues : m.continuesNamespace defined = true :=
        @continuesNamespace_of_starts m [] (Text.splitOn '.' name) defined (by rwa [hsplit])
          (List.length_pos_iff.mpr h.nonempty)
      rw [hstops] at hcontinues
      cases hcontinues

end Start

/-! ## Resolved names -/

open Resolution

section Resolve

variable {site : Site} {levels : Nat} {outermost : Bool} {element : Definition}
  {name hint : String}

/-- What a dotted name that is not defined itself is resolved to. -/
structure DottedOutcome (m : Model) (site : Site) (name hint : String) (notNull : Bool)
    (outcome : Except CompileError TypeInfo) : Prop where
  /-- A type of the model is the longest definition in the name, with the longest walk along
  the segments after it.  The walk covers all of them exactly if they are elements. -/
  walks : ∀ b u, outcome = .ok (.userDefined b u) → ∃ defined trailing d,
    m.LongestStart name defined trailing ∧ m.find? (Text.join "." defined) = some d ∧
    u.full = Text.join "." defined ∧ m.LongestWalk d trailing u.access ∧
    (u.access = trailing ↔ ∃ leaf, m.Denotes d trailing leaf)
  /-- Where they are elements, it is found, unless the definition is that of a namespace. -/
  covers : ∀ {defined trailing d leaf}, m.LongestStart name defined trailing →
    m.find? (Text.join "." defined) = some d → m.continuesNamespace defined = false →
    m.Denotes d trailing leaf → ∃ u, outcome = .ok (.userDefined notNull u) ∧
      u.full = Text.join "." defined ∧ u.access = trailing
  /-- Where not even the first one is an element, the name is one of a library or refused. -/
  refused : (∀ {defined trailing d segment rest}, m.LongestStart name defined trailing →
      m.find? (Text.join "." defined) = some d → trailing = segment :: rest →
      (m.allElements d).get? segment = none) →
    outcome = match site.libraries.find? name with
      | some type => .ok (.library notNull type.path type.name)
      | none => .error (.unresolvedType name hint)

theorem resolveName_of_undefined {notNull : Bool} (hcolon : ':' ∉ name.toList)
    (hbuiltin : isBuiltin name = false) (hself : name ≠ Definition.selfName)
    (hundefined : m.defines name = false) :
    m.resolveName site name element hint notNull =
      if (m.nameParts name).access = [] then resolveLibrary site name hint notNull
      else m.resolveAccess site (m.nameParts name).definitionName (m.nameParts name).access false
        hint notNull := by
  have hnone : builtin? name = none := by simpa [isBuiltin] using hbuiltin
  have hcontainer : Container.ofName? name = none := by
    rw [Container.ofName?]
    split
    · next h =>
      subst h
      exact absurd hbuiltin (by decide)
    · split
      · next h =>
        subst h
        exact absurd hbuiltin (by decide)
      · rfl
  simp [resolveName, hcolon, hcontainer, hnone, hself, hundefined]

theorem resolveLibrary_outcome {notNull : Bool} :
    (resolveLibrary site name hint notNull).outcome =
      match site.libraries.find? name with
      | some type => .ok (.library notNull type.path type.name)
      | none => .error (.unresolvedType name hint) := by
  rw [resolveLibrary]
  cases site.libraries.find? name <;> rfl

theorem resolveAccess_ok {d : Definition} {access : List String} {reference notNull : Bool}
    (hd : m.find? name = some d) :
    ∃ u, (m.resolveAccess site name access reference hint notNull).outcome =
      .ok (.userDefined notNull u) ∧ u.full = name ∧ u.access = access := by
  simp only [resolveAccess, resolveUserDefined, hd, Site.place]
  split <;> exact ⟨_, rfl, rfl, rfl⟩

theorem resolveWithin_dotted (hitems : element.items = none)
    (htype : element.type = some (.name name)) (hcolon : ':' ∉ name.toList)
    (hbuiltin : isBuiltin name = false) (hself : name ≠ Definition.selfName)
    (hundefined : m.defines name = false) :
    m.DottedOutcome site name hint (element.notNull || element.key)
      (m.resolveWithin site (levels + 1) outermost element hint).outcome := by
  have hresolve : m.resolveWithin site (levels + 1) outermost element hint =
      m.resolveName site name element hint (element.notNull || element.key) := by
    simp only [resolveWithin, hitems, htype, isPlainEnum, hbuiltin, Bool.and_false,
      Bool.false_eq_true, if_false]
  rw [hresolve, resolveName_of_undefined hcolon hbuiltin hself hundefined]
  by_cases haccess : (m.nameParts name).access = []
  · rw [if_pos haccess, resolveLibrary_outcome]
    refine ⟨?_, ?_, fun _ => rfl⟩
    · intro b u hu
      split at hu <;> cases hu
    · intro defined trailing d leaf hstart hd hstops hleaf
      have hnil := hleaf.starts_elementPath List.prefix_rfl
      rw [← (hstart.nameParts hd hstops).2, haccess, List.prefix_nil] at hnil
      subst hnil
      cases hleaf
  · rw [if_neg haccess]
    obtain ⟨defined, trailing, d, hstart, hd, hname, hwalk⟩ := nameParts_access haccess
    obtain ⟨u, hu, hfull, hpath⟩ := @resolveAccess_ok m site _ hint d (m.nameParts name).access
      false (element.notNull || element.key) (hname ▸ hd)
    refine ⟨?_, ?_, ?_⟩
    · intro b u hu
      obtain ⟨_, -, hinfo⟩ := resolveAccess_eq_ok hu
      cases hinfo
      exact ⟨defined, trailing, d, hstart, hd, hname, hwalk, hwalk.eq_iff⟩
    · intro defined' trailing' d' leaf hstart' hd' _ hleaf
      obtain ⟨rfl, rfl⟩ := hstart.unique hstart'
      obtain rfl := eq_of_find? hd hd'
      exact ⟨u, hu, hfull.trans hname, hpath.trans (hwalk.eq_iff.mpr ⟨leaf, hleaf⟩)⟩
    · intro hrefused
      exfalso
      obtain ⟨segment, access, hcons⟩ := List.exists_cons_of_ne_nil haccess
      obtain ⟨rest, hrest⟩ := hwalk.starts
      obtain ⟨leaf, hleaf⟩ := hwalk.denotes
      rw [hcons] at hleaf hrest
      obtain ⟨element, helement⟩ := hleaf.first
      rw [hrefused hstart hd hrest.symm] at helement
      cases helement

end Resolve

/-- Books have an author. -/
def books : Definition := {
  kind := some .entity
  elements := some [
    ("ID", elementOf "cds.UUID"),
    ("author", { type := some (.name "cds.Association"), target := some "bookshop.Authors" })] }

/-- Books have an author, who has a name. -/
def bookshop : Model where
  definitions := [
    ("bookshop.Books", books),
    ("bookshop.Authors", {
      kind := some .entity
      elements := some [("ID", elementOf "cds.UUID"), ("name", elementOf "cds.String")] })]

/-- The file of the bookshop. -/
def bookshopSite : Site := ⟨⟨["bookshop"]⟩, none, .standard⟩

theorem resolveWithin_authorName :
    bookshop.DottedOutcome bookshopSite "bookshop.Books.author.name" "signature" false
        (bookshop.resolveWithin bookshopSite 1 true (elementOf "bookshop.Books.author.name")
          "signature").outcome ∧
      ∃ u, (bookshop.resolveWithin bookshopSite 1 true (elementOf "bookshop.Books.author.name")
          "signature").outcome = .ok (.userDefined false u) ∧
        u.full = "bookshop.Books" ∧ u.access = ["author", "name"] :=
  ⟨@resolveWithin_dotted bookshop bookshopSite 0 true (elementOf "bookshop.Books.author.name")
    "bookshop.Books.author.name" "signature" rfl rfl (by decide) (by decide) (by decide)
    (by decide), _, rfl, rfl, rfl⟩

/-- A name that goes on after an author by something an author does not have is taken for
the author. -/
theorem resolve_nope :
    bookshop.LongestStart "bookshop.Books.author.nope" ["bookshop", "Books"] ["author", "nope"] ∧
      bookshop.find? "bookshop.Books" = some books ∧
      (¬ ∃ leaf, bookshop.Denotes books ["author", "nope"] leaf) ∧
      ∃ u, (bookshop.resolve bookshopSite (elementOf "bookshop.Books.author.nope")
          "signature").outcome = .ok (.userDefined false u) ∧
        u.full = "bookshop.Books" ∧ u.access = ["author"] := by
  obtain ⟨-, -, hstart, -⟩ := @nameParts_of_definedLength? bookshop
    "bookshop.Books.author.nope" ["bookshop"] ["Books", "author", "nope"] 1 (by decide) (by decide)
  have hwalk := @elementPath_longest bookshop books ["author", "nope"] (by decide)
  refine ⟨hstart, rfl, fun hleaf => ?_, _, rfl, rfl, rfl⟩
  exact absurd (hwalk.eq_iff.mpr hleaf) (by decide)

end Model

end SchemaTypes
