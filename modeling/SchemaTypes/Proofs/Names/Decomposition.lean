import SchemaTypes.Proofs.Access.Paths
import SchemaTypes.Proofs.Stub.Parents
import Mathlib.Logic.Function.Iterate

/-!
# The parts of any name

A name need not be defined to be taken apart.  Its namespace is the longest front, short of
the last segment, that nothing but services and contexts stands in the way of
(`Model.LongestSpace`).  Behind it the longest definition is looked for, and what comes
after that may walk through elements.

A namespace that leaves two segments or more stopped at a definition
(`Model.defines_of_splitNamespace`).  So there is a definition around every name with a
scope, and its name is taken apart at the same place (`Model.parent_encloses`).  Scopes get
shorter on the way out, which is why it comes to an end (`Model.iterate_parent`).
-/

namespace SchemaTypes

/-- The segments of the definition, without the access. -/
def NameParts.segments (n : NameParts) : List String := n.path.segments ++ n.scope ++ [n.name]

namespace Model

variable {m : Model} {name : String} {space rest : List String}

/-! ## Namespaces -/

/-- Whatever the segments start with is no definition, or a service or a context. -/
def FreeSpace (m : Model) (space : List String) : Prop :=
  ∀ front, front <+: space → front ≠ [] → ∀ kind,
    m.kindOf? (Text.join "." front) = some kind → kind = .service ∨ kind = .context

/-- The namespace of a full name. -/
structure LongestSpace (m : Model) (name : String) (space : List String) : Prop where
  starts : space <+: Text.splitOn '.' name
  /-- The last segment is left for the name of a definition. -/
  short : space.length < (Text.splitOn '.' name).length
  free : m.FreeSpace space
  longest : ∀ {front}, front <+: Text.splitOn '.' name →
    front.length < (Text.splitOn '.' name).length → m.FreeSpace front → front <+: space

theorem continuesNamespace_iff {segments : List String} :
    m.continuesNamespace segments = true ↔
      ∀ kind, m.kindOf? (Text.join "." segments) = some kind →
        kind = .service ∨ kind = .context := by
  rw [continuesNamespace]
  cases m.kindOf? (Text.join "." segments) <;> simp [Kind.isNamespaceLike]

/-- A namespace that leaves more than the last segment cannot go on. -/
theorem continuesNamespace_of_splitNamespace {segment next : String}
    {more segments taken : List String}
    (h : m.splitNamespace taken segments = (space, segment :: next :: more)) :
    m.continuesNamespace (space ++ [segment]) = false := by
  induction segments generalizing taken with
  | nil => simp [splitNamespace] at h
  | cons first rest ih =>
    cases rest with
    | nil => simp [splitNamespace] at h
    | cons second rest =>
      rw [splitNamespace] at h
      split at h
      · exact ih h
      · next hstops =>
        obtain ⟨rfl, hrest⟩ := Prod.mk.inj h
        obtain ⟨rfl, -⟩ := List.cons.inj hrest
        simpa using hstops

theorem defines_of_splitNamespace {segment next : String} {more segments taken : List String}
    (h : m.splitNamespace taken segments = (space, segment :: next :: more)) :
    m.defines (Text.join "." (space ++ [segment])) = true := by
  have hstops := continuesNamespace_of_splitNamespace h
  rw [defines]
  by_contra hnone
  rw [Bool.not_eq_true, Option.isSome_eq_false_iff, Option.isNone_iff_eq_none] at hnone
  simp [continuesNamespace, kindOf?, hnone] at hstops

theorem longestSpace (m : Model) (name : String) :
    m.LongestSpace name (m.nameParts name).path.segments := by
  obtain ⟨space, rest, hsplit⟩ : ∃ space rest,
      m.splitNamespace [] (Text.splitOn '.' name) = (space, rest) := ⟨_, _, rfl⟩
  have hspace : (m.nameParts name).path.segments = space := congrArg Prod.fst hsplit
  have happend : space ++ rest = Text.splitOn '.' name := by
    simpa [hsplit] using m.splitNamespace_append (Text.splitOn '.' name) []
  have hrest : rest ≠ [] := by
    simpa [hsplit] using m.splitNamespace_snd_ne_nil (splitOn_ne_nil '.' name) []
  have hstarts : space <+: Text.splitOn '.' name := ⟨rest, happend⟩
  rw [hspace]
  refine ⟨hstarts, ?_, fun front hfront hne => ?_, fun {front} hfront hshort hfree => ?_⟩
  · rw [← happend, List.length_append]
    exact Nat.lt_add_of_pos_right (List.length_pos_iff.mpr hrest)
  · refine continuesNamespace_iff.mp ?_
    exact @continuesNamespace_of_starts m [] (Text.splitOn '.' name) front (by rwa [hsplit])
      (List.length_pos_iff.mpr hne)
  · refine List.prefix_of_prefix_length_le hfront hstarts (Nat.le_of_not_lt fun hlonger => ?_)
    -- What is longer starts with the segment that the namespace stopped at.
    obtain ⟨segment, next, more, rfl⟩ : ∃ segment next more, rest = segment :: next :: more := by
      match rest, hrest with
      | [last], _ =>
        rw [← happend, List.length_append, List.length_singleton] at hshort
        omega
      | segment :: next :: more, _ => exact ⟨segment, next, more, rfl⟩
    have hstop : space ++ [segment] <+: Text.splitOn '.' name := by
      rw [← happend]
      exact (List.prefix_append_right_inj space).mpr ⟨next :: more, rfl⟩
    have hreached : space ++ [segment] <+: front :=
      List.prefix_of_prefix_length_le hstop hfront (by simpa using Nat.succ_le_of_lt hlonger)
    have hcontinues := continuesNamespace_iff.mpr (hfree _ hreached (by simp))
    rw [continuesNamespace_of_splitNamespace hsplit] at hcontinues
    cases hcontinues

/-! ## The definition behind the namespace -/

/-- The scope and the name are behind the namespace, up to the end of the longest definition. -/
theorem nameParts_scope {length? : Option Nat}
    (hsplit : m.splitNamespace [] (Text.splitOn '.' name) = (space, rest))
    (hlength : m.definedLength? space rest rest.length = length?) :
    (m.nameParts name).path = ⟨space⟩ ∧
      (m.nameParts name).scope ++ [(m.nameParts name).name] =
        rest.take (length?.getD rest.length) := by
  have hrest : rest ≠ [] := by
    simpa [hsplit] using m.splitNamespace_snd_ne_nil (splitOn_ne_nil '.' name) []
  have htake : rest.take (length?.getD rest.length) ≠ [] := by
    cases length? with
    | none => simpa using hrest
    | some n =>
      have hpos := (definedLength?_eq_some hlength).1
      simp only [Option.getD_some, ne_eq, List.take_eq_nil_iff, hrest, or_false]
      omega
  rw [nameParts]
  simp only [hsplit, hlength]
  exact ⟨trivial, scopeAndName_append htake⟩

theorem nameParts_segments {length? : Option Nat}
    (hsplit : m.splitNamespace [] (Text.splitOn '.' name) = (space, rest))
    (hlength : m.definedLength? space rest rest.length = length?) :
    (m.nameParts name).segments = space ++ rest.take (length?.getD rest.length) := by
  obtain ⟨hpath, hname⟩ := nameParts_scope hsplit hlength
  rw [NameParts.segments, List.append_assoc, hname, hpath]

theorem segments_starts (m : Model) (name : String) :
    (m.nameParts name).segments ++ (m.nameParts name).access <+: Text.splitOn '.' name := by
  rcases hsplit : m.splitNamespace [] (Text.splitOn '.' name) with ⟨space, rest⟩
  have happend : space ++ rest = Text.splitOn '.' name := by
    simpa [hsplit] using m.splitNamespace_append (Text.splitOn '.' name) []
  cases hn : m.definedLength? space rest rest.length with
  | none =>
    rw [nameParts_segments hsplit hn, nameParts_access_nil hsplit hn]
    simp [happend]
  | some n =>
    obtain ⟨d, -, hstart, -, haccess⟩ := nameParts_of_definedLength? hsplit hn
    rw [nameParts_segments hsplit hn, haccess, hstart.segments, Option.getD_some]
    exact (List.prefix_append_right_inj _).mpr elementPath_starts

/-- A definition that is longer than the namespace is part of the one that is found. -/
theorem longest_of_defines {front : List String} (hfront : front <+: Text.splitOn '.' name)
    (hlonger : (m.nameParts name).path.segments.length < front.length)
    (hdefines : m.defines (Text.join "." front) = true) :
    m.defines (m.nameParts name).definitionName = true ∧
      front <+: (m.nameParts name).segments := by
  rcases hsplit : m.splitNamespace [] (Text.splitOn '.' name) with ⟨space, rest⟩
  have happend : space ++ rest = Text.splitOn '.' name := by
    simpa [hsplit] using m.splitNamespace_append (Text.splitOn '.' name) []
  have hlonger : space.length < front.length := by
    rwa [(nameParts_scope hsplit rfl).1] at hlonger
  obtain ⟨after, hafter⟩ := hfront
  cases hn : m.definedLength? space rest rest.length with
  | none =>
    obtain ⟨k, hk, hsum, rfl⟩ := exists_take (happend.trans hafter.symm) hlonger.le
    rw [definedLength?_eq_none hn (by omega) hk] at hdefines
    cases hdefines
  | some n =>
    obtain ⟨d, hd, hstart, hdefinition, -⟩ := nameParts_of_definedLength? hsplit hn
    rw [hdefinition, nameParts_segments hsplit hn, Option.getD_some, defines, hd]
    refine ⟨rfl, List.prefix_of_prefix_length_le ⟨after, hafter⟩ ?_
      (hstart.longest hafter.symm hdefines)⟩
    exact ⟨rest.drop n, hstart.segments.symm⟩

theorem access_of_defined {d : Definition} (hd : m.find? name = some d) :
    (m.nameParts name).access = [] := by
  have hlength := (m.segments_starts name).length_le
  rw [NameParts.segments, segments_of_defined hd, List.length_append] at hlength
  exact List.eq_nil_of_length_eq_zero (by omega)

/-! ## Enclosing definitions -/

/-- The parts of a definition around that of a name. -/
structure Encloses (m : Model) (outer n : NameParts) : Prop where
  path : outer.path = n.path
  scope : outer.scope.length < n.scope.length
  defines : m.defines outer.definitionName = true
  segments : outer.segments <+: n.segments
  /-- The full name of the outer definition and a dot stand in front. -/
  below : isBelow outer.definitionName n.definitionName = true

theorem isBelow_join {outer inner : List String} (houter : outer ≠ []) (hinner : inner ≠ []) :
    isBelow (Text.join "." outer) (Text.join "." (outer ++ inner)) = true := by
  rw [isBelow, List.isPrefixOf_iff_prefix, Text.join_append houter hinner, String.toList_append,
    String.toList_append]
  exact List.prefix_append _ _

theorem Encloses.of_segments {outer n : NameParts} (hpath : outer.path = n.path)
    (hscope : outer.scope.length < n.scope.length) (hdefines : m.defines outer.definitionName = true)
    (hsegments : outer.segments <+: n.segments) : m.Encloses outer n := by
  refine ⟨hpath, hscope, hdefines, hsegments, ?_⟩
  obtain ⟨inner, hinner⟩ := hsegments
  have hne : inner ≠ [] := by
    rintro rfl
    have hlength := congrArg List.length hinner
    simp only [NameParts.segments, hpath, List.append_nil, List.length_append,
      List.length_singleton] at hlength
    omega
  rw [NameParts.definitionName, NameParts.definitionName, ← NameParts.segments,
    ← NameParts.segments, ← hinner]
  exact isBelow_join (by simp [NameParts.segments]) hne

/-- A name that is cut off behind its namespace has the same namespace. -/
theorem splitNamespace_cut {segment next : String} {more : List String}
    (hsplit : m.splitNamespace [] (Text.splitOn '.' name) = (space, segment :: next :: more))
    (k : Nat) :
    m.splitNamespace []
        (Text.splitOn '.' (Text.join "." (space ++ (segment :: next :: more).take (k + 1)))) =
      (space, (segment :: next :: more).take (k + 1)) := by
  have happend : space ++ segment :: next :: more = Text.splitOn '.' name := by
    simpa [hsplit] using m.splitNamespace_append (Text.splitOn '.' name) []
  have hdot : "." = String.singleton '.' := rfl
  rw [hdot, Text.splitOn_join (by simp) fun s hs => Text.notMem_of_mem_splitOn (s := name) ?_]
  · exact splitNamespace_take [] (by rwa [happend]) k
  · rw [← happend]
    exact List.append_subset.mpr ⟨List.subset_append_left _ _, fun s hs =>
      List.mem_append_right _ (List.mem_of_mem_take hs)⟩ hs

/-- Behind the namespace of a name with a scope there is a definition of two segments or
more. -/
theorem exists_of_scope (hscope : (m.nameParts name).scope ≠ []) :
    ∃ space segment next more k,
      m.splitNamespace [] (Text.splitOn '.' name) = (space, segment :: next :: more) ∧
      m.definedLength? space (segment :: next :: more) (more.length + 2) = some (k + 2) ∧
      (m.nameParts name).scope = (segment :: next :: more).take (k + 1) := by
  obtain ⟨space, rest, hsplit⟩ : ∃ space rest,
      m.splitNamespace [] (Text.splitOn '.' name) = (space, rest) := ⟨_, _, rfl⟩
  have hpos : 0 < (m.nameParts name).scope.length := List.length_pos_iff.mpr hscope
  have hname := (nameParts_scope hsplit rfl).2
  have hlength := congrArg List.length hname
  rw [List.length_append, List.length_singleton, List.length_take] at hlength
  obtain ⟨segment, next, more, rfl⟩ : ∃ segment next more, rest = segment :: next :: more := by
    match rest with
    | [] => simp at hlength
    | [last] =>
      rw [List.length_singleton] at hlength
      omega
    | segment :: next :: more => exact ⟨segment, next, more, rfl⟩
  refine ⟨space, segment, next, more, ?_⟩
  rw [List.length_cons, List.length_cons] at hname hlength
  cases hn : m.definedLength? space (segment :: next :: more) (more.length + 2) with
  | none =>
    -- The namespace stopped at the first of the segments.
    have hfirst := defines_of_splitNamespace hsplit
    rw [show [segment] = (segment :: next :: more).take 1 from rfl,
      definedLength?_eq_none hn Nat.one_pos (by omega)] at hfirst
    cases hfirst
  | some n =>
    have hle := (definedLength?_eq_some hn).2.1
    rw [hn, Option.getD_some] at hname hlength
    obtain ⟨k, rfl⟩ : ∃ k, n = k + 2 := ⟨n - 2, by omega⟩
    refine ⟨k, hsplit, rfl, ?_⟩
    have hfront := congrArg (List.take (k + 1)) hname
    rwa [List.take_left' (by omega), List.take_take, Nat.min_eq_left (by omega)] at hfront

/-- A name with a scope has a definition around it. -/
theorem parent_encloses (hscope : (m.nameParts name).scope ≠ []) :
    ∃ outer, m.parent? (m.nameParts name) = some (m.nameParts outer) ∧
      m.Encloses (m.nameParts outer) (m.nameParts name) := by
  obtain ⟨space, segment, next, more, k, hsplit, hk, htake⟩ := exists_of_scope hscope
  have hpath := (nameParts_scope hsplit hk).1
  have hcut := splitNamespace_cut hsplit k
  rw [← htake] at hcut
  refine ⟨Text.join "." (space ++ (m.nameParts name).scope), ?_, ?_⟩
  · rw [parent?, if_neg (by simpa using hscope), hpath]
  cases hn : m.definedLength? space (m.nameParts name).scope (m.nameParts name).scope.length with
  | none =>
    have hfirst := defines_of_splitNamespace hsplit
    have hnone := definedLength?_eq_none hn Nat.one_pos (List.length_pos_iff.mpr hscope)
    rw [htake, List.take_take, Nat.min_eq_left (by omega)] at hnone
    exact absurd (hfirst.symm.trans hnone) (by simp)
  | some n =>
    obtain ⟨hpath', hname'⟩ := nameParts_scope hcut hn
    obtain ⟨d, hd, -, hdefinition, -⟩ := nameParts_of_definedLength? hcut hn
    have hlength := congrArg List.length hname'
    rw [List.length_append, List.length_singleton, List.length_take] at hlength
    refine .of_segments (hpath'.trans hpath.symm) (by omega) ?_ ?_
    · rw [hdefinition, defines, hd]
      rfl
    · rw [nameParts_segments hcut hn, NameParts.segments, hpath, List.append_assoc,
        List.prefix_append_right_inj]
      exact (List.take_prefix _ _).trans (List.prefix_append _ _)

theorem iterate_parent (m : Model) : ∀ (k : Nat) (name : String),
    (m.nameParts name).scope.length ≤ k →
      (fun n? => n?.bind m.parent?)^[k + 1] (some (m.nameParts name)) = none := by
  intro k
  induction k with
  | zero =>
    intro name hlength
    simp [parent?, List.eq_nil_of_length_eq_zero (Nat.le_zero.mp hlength)]
  | succ k ih =>
    intro name hlength
    rw [Function.iterate_succ_apply, Option.bind_some]
    by_cases hscope : (m.nameParts name).scope = []
    · rw [parent?, hscope]
      exact Function.iterate_fixed rfl _
    · obtain ⟨outer, hparent, houter⟩ := parent_encloses hscope
      rw [hparent]
      exact ih outer (Nat.lt_succ_iff.mp (houter.scope.trans_le hlength))

/-! ## Names and their parts -/

/-- What a full name is taken apart into. -/
structure Decomposes (m : Model) (name : String) (n : NameParts) : Prop where
  space : m.LongestSpace name n.path.segments
  starts : n.segments ++ n.access <+: Text.splitOn '.' name
  /-- Where a definition is longer than the namespace, the longest one is taken. -/
  longest : ∀ {front}, front <+: Text.splitOn '.' name → n.path.segments.length < front.length →
    m.defines (Text.join "." front) = true →
      m.defines n.definitionName = true ∧ front <+: n.segments
  defined : m.defines name = true → n.definitionName = name ∧ n.access = []
  parent : n.scope ≠ [] → ∃ outer, m.parent? n = some outer ∧ m.Encloses outer n
  /-- On the way out there are no more steps than names in the scope. -/
  ends : (fun n? => n?.bind m.parent?)^[n.scope.length + 1] (some n) = none

/-- Every name is taken apart at the longest namespace and the longest definition, and its
enclosing definitions are found. -/
theorem nameParts_decomposes (m : Model) (name : String) :
    m.Decomposes name (m.nameParts name) where
  space := m.longestSpace name
  starts := m.segments_starts name
  longest := longest_of_defines
  defined hdefines := by
    obtain ⟨d, hd⟩ := Option.isSome_iff_exists.mp hdefines
    exact ⟨definitionName_of_defined hd, access_of_defined hd⟩
  parent hscope := by
    obtain ⟨outer, hparent, hencloses⟩ := parent_encloses hscope
    exact ⟨_, hparent, hencloses⟩
  ends := m.iterate_parent _ name le_rfl

end Model

end SchemaTypes
