import SchemaTypes.Path.Basic
import SchemaTypes.Proofs.Text

/-!
# Paths of plain segments

A segment is plain when it is not empty and holds neither a dot nor a
separator.  Paths of plain segments are told apart by the dotted text
(`Path.eq_of_dotted_eq`).

A directory may also have a dot in its name, if it is neither `.` nor `..`.  A path of
such names is proper.  Its directory has the segments for its components, and the way to
it leaves what it does not share with the base and then follows the rest
(`Directory.stepsFrom?_names`).  So proper paths are told apart by the module specifier, in a
file of any namespace (`Path.eq_of_specifierFrom_eq`), and a proper path sees only itself as
the current directory (`Path.isHere_iff`).
-/

namespace SchemaTypes

/-- A segment that is a name of its own in a dotted text and in a directory. -/
structure PlainSegment (s : String) : Prop where
  nonempty : s ≠ ""
  noDot : '.' ∉ s.toList
  noSlash : '/' ∉ s.toList
  noBackslash : '\\' ∉ s.toList

instance (s : String) : Decidable (PlainSegment s) :=
  decidable_of_iff (s ≠ "" ∧ '.' ∉ s.toList ∧ '/' ∉ s.toList ∧ '\\' ∉ s.toList)
    ⟨fun ⟨h, hdot, hslash, hback⟩ => ⟨h, hdot, hslash, hback⟩,
      fun h => ⟨h.nonempty, h.noDot, h.noSlash, h.noBackslash⟩⟩

/-- A path of plain segments. -/
def Path.Plain (p : Path) : Prop := ∀ s ∈ p.segments, PlainSegment s

instance (p : Path) : Decidable p.Plain :=
  inferInstanceAs (Decidable (∀ s ∈ p.segments, PlainSegment s))

/-- A name that leads one step down from a directory. -/
structure ProperName (s : String) : Prop where
  nonempty : s ≠ ""
  noSlash : '/' ∉ s.toList
  noBackslash : '\\' ∉ s.toList
  notCurrent : s ≠ "."
  notParent : s ≠ ".."

instance (s : String) : Decidable (ProperName s) :=
  decidable_of_iff (s ≠ "" ∧ '/' ∉ s.toList ∧ '\\' ∉ s.toList ∧ s ≠ "." ∧ s ≠ "..")
    ⟨fun ⟨h, hslash, hback, hcurrent, hparent⟩ => ⟨h, hslash, hback, hcurrent, hparent⟩,
      fun h => ⟨h.nonempty, h.noSlash, h.noBackslash, h.notCurrent, h.notParent⟩⟩

/-- A path of proper names. -/
def Path.Proper (p : Path) : Prop := ∀ s ∈ p.segments, ProperName s

instance (p : Path) : Decidable p.Proper :=
  inferInstanceAs (Decidable (∀ s ∈ p.segments, ProperName s))

theorem PlainSegment.proper {s : String} (h : PlainSegment s) : ProperName s where
  nonempty := h.nonempty
  noSlash := h.noSlash
  noBackslash := h.noBackslash
  notCurrent := by
    rintro rfl
    exact h.noDot (by decide)
  notParent := by
    rintro rfl
    exact h.noDot (by decide)

theorem Path.Plain.proper {p : Path} (h : p.Plain) : p.Proper := fun s hs => (h s hs).proper

namespace Directory

/-- A name that is one piece of a path. -/
def Solid (s : String) : Prop := s ≠ "" ∧ '/' ∉ s.toList

theorem PlainSegment.solid {s : String} (h : PlainSegment s) : Solid s :=
  ⟨h.nonempty, h.noSlash⟩

theorem ProperName.solid {s : String} (h : ProperName s) : Solid s :=
  ⟨h.nonempty, h.noSlash⟩

/-! ## Joining -/

theorem Solid.not_absolute {s : String} (h : Solid s) : isAbsolute s = false := by
  simp only [isAbsolute]
  cases hs : s.toList with
  | nil => rfl
  | cons c rest =>
    have hc : c ≠ '/' := by
      rintro rfl
      exact h.2 (hs ▸ List.mem_cons_self)
    simp [hc]

theorem join_not_absolute {names : List String} (h : ∀ s ∈ names, Solid s) :
    isAbsolute (Text.join "/" names) = false := by
  cases names with
  | nil => rfl
  | cons s rest =>
    have hs := h s List.mem_cons_self
    simp only [isAbsolute]
    cases hc : s.toList with
    | nil => exact absurd (by simpa using hc) hs.1
    | cons c cs =>
      have hne : c ≠ '/' := by
        rintro rfl
        exact hs.2 (hc ▸ List.mem_cons_self)
      cases rest with
      | nil => simp [Text.join, hc, hne]
      | cons t rest => simp [Text.join, hc, hne]

theorem endsWithSeparator_append {a s : String} (h : Solid s) :
    endsWithSeparator (a ++ s) = false := by
  simp only [endsWithSeparator]
  have hne : s.toList ≠ [] := by simpa using h.1
  rw [String.toList_append, List.getLast?_append_of_ne_nil _ hne,
    List.getLast?_eq_getLast_of_ne_nil hne]
  have hlast : s.toList.getLast hne ≠ '/' := by
    intro heq
    exact h.2 (heq ▸ List.getLast_mem hne)
  simp [hlast]

theorem push_of_solid {a s : String} (ha : a ≠ "") (hend : endsWithSeparator a = false)
    (hs : Solid s) : push a s = a ++ "/" ++ s := by
  simp [push, hs.not_absolute, ha, hend]

theorem foldl_push {names : List String} (h : ∀ s ∈ names, Solid s) :
    ∀ {a : String}, a ≠ "" → endsWithSeparator a = false →
      names.foldl push a = Text.join "/" (a :: names) := by
  induction names with
  | nil => exact fun _ _ => rfl
  | cons s rest ih =>
    intro a ha hend
    have hs := h s List.mem_cons_self
    rw [List.foldl_cons, push_of_solid ha hend hs,
      ih (fun x hx => h x (List.mem_cons_of_mem _ hx)) (by simp [ha])
        (endsWithSeparator_append hs)]
    cases rest with
    | nil => simp [Text.join]
    | cons t rest => simp [Text.join, String.append_assoc]

/-- Solid names are joined by separators. -/
theorem joinNames_eq {names : List String} (h : ∀ s ∈ names, Solid s) :
    joinNames names = Text.join "/" names := by
  cases names with
  | nil => rfl
  | cons s rest =>
    have hs := h s List.mem_cons_self
    have hfirst : push "" s = s := by simp [push, hs.not_absolute]
    rw [joinNames, List.foldl_cons, hfirst]
    refine foldl_push (fun x hx => h x (List.mem_cons_of_mem _ hx)) hs.1 ?_
    have hend := endsWithSeparator_append (a := "") hs
    simpa using hend

/-! ## Components -/

/-- Proper names are the names that they are read as. -/
theorem filterMap_ofName?_names {names : List String} (h : ∀ s ∈ names, ProperName s) :
    names.filterMap Component.ofName? = names.map .name := by
  induction names with
  | nil => rfl
  | cons s rest ih =>
    have hs := h s List.mem_cons_self
    have hfirst : Component.ofName? s = some (.name s) := by
      simp [Component.ofName?, hs.nonempty, hs.notCurrent, hs.notParent]
    rw [List.filterMap_cons, hfirst, List.map_cons, ih fun x hx => h x (List.mem_cons_of_mem _ hx)]

theorem components_joinNames {names : List String} (h : ∀ s ∈ names, ProperName s) :
    components (joinNames names) = names.map .name := by
  rw [joinNames_eq fun s hs => ProperName.solid (h s hs)]
  cases names with
  | nil => decide
  | cons s rest =>
    have hsep : "/" = String.singleton '/' := rfl
    have hsplit : Text.splitOn '/' (Text.join "/" (s :: rest)) = s :: rest := by
      rw [hsep]
      exact Text.splitOn_join (List.cons_ne_nil s rest) fun p hp => (h p hp).noSlash
    have hleading : leading (Text.join "/" (s :: rest)) = [] := by
      have habs : isAbsolute (Text.join "/" (s :: rest)) = false :=
        join_not_absolute fun x hx => ProperName.solid (h x hx)
      simp [leading, habs, hsplit, (h s List.mem_cons_self).notCurrent]
    rw [components, hleading, hsplit, List.nil_append, filterMap_ofName?_names h]

theorem current_notMem_filterMap (names : List String) :
    Component.current ∉ names.filterMap Component.ofName? := by
  rw [List.mem_filterMap]
  rintro ⟨name, -, hname⟩
  simp only [Component.ofName?] at hname
  split at hname
  · cases hname
  · split at hname <;> cases hname

/-- Only the first component of a path that is not absolute can be the current directory. -/
theorem components_of_relative {path : String} (h : isAbsolute path = false) :
    ∃ rest, .current ∉ rest ∧ (components path = rest ∨ components path = .current :: rest) := by
  refine ⟨(Text.splitOn '/' path).filterMap Component.ofName?, current_notMem_filterMap _, ?_⟩
  simp only [components, leading, h, Bool.false_eq_true, if_false]
  split
  · exact Or.inr rfl
  · exact Or.inl rfl

/-! ## The way from one directory to another -/

theorem stepsFrom?_leave (taken base : List Component) :
    stepsFrom? taken [] base = some (taken ++ List.replicate base.length .parent) := by
  induction base generalizing taken with
  | nil => simp [stepsFrom?]
  | cons b base ih =>
    rw [stepsFrom?, ih, List.append_assoc]
    rfl

theorem stepsFrom?_self (steps : List Component) : stepsFrom? [] steps steps = some [] := by
  induction steps with
  | nil => simp [stepsFrom?]
  | cons step rest ih => simp [stepsFrom?, ih]

/-- The way goes on after a step was taken: the base is left, or it climbs and there is no
way. -/
theorem stepsFrom?_taken {taken base : List Component} (htaken : taken ≠ [])
    (hbase : .current ∉ base) (target : List Component) :
    stepsFrom? taken target base = some (taken ++ List.replicate base.length .parent ++ target) ∨
      stepsFrom? taken target base = none ∧ .parent ∈ base := by
  cases target with
  | nil => exact Or.inl (by rw [stepsFrom?_leave, List.append_nil])
  | cons t target =>
    cases base with
    | nil => exact Or.inl (by simp [stepsFrom?])
    | cons b base =>
      have hcurrent : b ≠ .current := fun heq => hbase (heq ▸ List.mem_cons_self)
      by_cases hparent : b = .parent
      · subst hparent
        exact Or.inr ⟨by simp [stepsFrom?, htaken], List.mem_cons_self⟩
      · left
        simp [stepsFrom?, htaken, hcurrent, hparent, leave, List.replicate_succ]

/-- The way from a directory that does not start at the current one to one of names: what they
share is dropped, unless the base climbs where they differ. -/
theorem stepsFrom?_names (target : List String) (base : List Component)
    (hbase : .current ∉ base) :
    ∃ shared, (target.take shared).map .name = base.take shared ∧ shared ≤ base.length ∧
      (stepsFrom? [] (target.map .name) base =
          some (List.replicate (base.length - shared) .parent ++
            (target.drop shared).map .name) ∨
        stepsFrom? [] (target.map .name) base = none ∧ .parent ∈ base) := by
  induction target generalizing base with
  | nil => exact ⟨0, by simp, by simp, Or.inl (by rw [List.map_nil, stepsFrom?_leave]; simp)⟩
  | cons t target ih =>
    cases base with
    | nil => exact ⟨0, by simp, by simp, Or.inl (by simp [stepsFrom?])⟩
    | cons b base =>
      by_cases htb : Component.name t = b
      · subst htb
        obtain ⟨shared, htake, hlength, hsteps⟩ :=
          ih base fun hmem => hbase (List.mem_cons_of_mem _ hmem)
        refine ⟨shared + 1, by simp [htake], by simpa using hlength, ?_⟩
        simpa [stepsFrom?] using hsteps
      · have hcurrent : b ≠ .current := fun heq => hbase (heq ▸ List.mem_cons_self)
        refine ⟨0, by simp, by simp, ?_⟩
        by_cases hparent : b = .parent
        · subst hparent
          exact Or.inr ⟨by simp [stepsFrom?], List.mem_cons_self⟩
        · left
          simp [stepsFrom?, htb, hcurrent, hparent, leave, List.replicate_succ]

/-- The names on the way to a directory of names, which are all its names where there is no
way. -/
def wayFrom (base : List Component) (target : List String) : List String :=
  ((stepsFrom? [] (target.map .name) base).map (List.map Component.text)).getD target

theorem wayFrom_of_steps {base steps : List Component} {target : List String}
    (h : stepsFrom? [] (target.map .name) base = some steps) :
    wayFrom base target = steps.map Component.text := by
  rw [wayFrom, h, Option.map_some, Option.getD_some]

theorem wayFrom_of_none {base : List Component} {target : List String}
    (h : stepsFrom? [] (target.map .name) base = none) : wayFrom base target = target := by
  rw [wayFrom, h, Option.map_none, Option.getD_none]

theorem map_text_names (names : List String) :
    (names.map Component.name).map Component.text = names := by
  rw [List.map_map]
  exact List.map_id _

theorem wayFrom_names (target : List String) {base : List Component} (hbase : .current ∉ base) :
    ∃ shared, (target.take shared).map .name = base.take shared ∧ shared ≤ base.length ∧
      (wayFrom base target = List.replicate (base.length - shared) ".." ++ target.drop shared ∨
        wayFrom base target = target ∧ .parent ∈ base) := by
  obtain ⟨shared, htake, hlength, hsteps⟩ := stepsFrom?_names target base hbase
  refine ⟨shared, htake, hlength, hsteps.imp (fun hsome => ?_) fun ⟨hnone, hparent⟩ => ?_⟩
  · rw [wayFrom_of_steps hsome, List.map_append, List.map_replicate, map_text_names]
    rfl
  · exact ⟨wayFrom_of_none hnone, hparent⟩

/-- A way that starts at the current directory goes down first and leaves the base then. -/
theorem wayFrom_current (base : List Component) (hbase : .current ∉ base) :
    wayFrom (.current :: base) [] = ".." :: List.replicate base.length ".." ∧
      ∀ s rest, wayFrom (.current :: base) (s :: rest) =
          s :: (List.replicate base.length ".." ++ rest) ∨
        wayFrom (.current :: base) (s :: rest) = s :: rest ∧ base ≠ [] := by
  constructor
  · have hleave : stepsFrom? [] (([] : List String).map .name) (.current :: base) =
        some (List.replicate (base.length + 1) .parent) := stepsFrom?_leave [] _
    rw [wayFrom_of_steps hleave, List.map_replicate]
    rfl
  · intro s rest
    have hfirst : stepsFrom? [] ((s :: rest).map .name) (.current :: base) =
        stepsFrom? [.name s] (rest.map .name) base := by
      simp [stepsFrom?]
    rcases stepsFrom?_taken (List.cons_ne_nil (.name s) []) hbase (rest.map .name) with
      hsome | ⟨hnone, hparent⟩
    · left
      rw [wayFrom_of_steps (hfirst.trans hsome), List.map_append, map_text_names,
        List.map_append, List.map_replicate]
      rfl
    · exact Or.inr ⟨wayFrom_of_none (hfirst.trans hnone), List.ne_nil_of_mem hparent⟩

/-- Nothing but the target stands on the way besides what was taken and steps up. -/
theorem mem_stepsFrom? {taken target base steps : List Component}
    (h : stepsFrom? taken target base = some steps) {c : Component} (hc : c ∈ steps) :
    c ∈ taken ∨ c = .parent ∨ c ∈ target := by
  fun_induction stepsFrom? taken target base with
  | case1 taken target =>
    cases h
    exact (List.mem_append.mp hc).imp_right Or.inr
  | case2 taken b base ih =>
    rcases ih h with htaken | hrest
    · exact (List.mem_append.mp htaken).imp_right fun hb => Or.inl (List.mem_singleton.mp hb)
    · exact Or.inr hrest
  | case3 taken t target b base _ ih =>
    exact (ih h).imp_right (Or.imp_right (List.mem_cons_of_mem t))
  | case4 taken t target b base _ _ ih =>
    rcases ih h with htaken | hparent | htarget
    · rcases List.mem_append.mp htaken with htaken | ht
      · exact Or.inl htaken
      · exact Or.inr (Or.inr (List.mem_singleton.mp ht ▸ List.mem_cons_self))
    · exact Or.inr (Or.inl hparent)
    · exact Or.inr (Or.inr (List.mem_cons_of_mem t htarget))
  | case5 => cases h
  | case6 taken t target b base =>
    cases h
    rcases List.mem_append.mp hc with htaken | hleave
    · exact Or.inl htaken
    · rcases List.mem_append.mp hleave with hup | htarget
      · obtain ⟨_, -, rfl⟩ := List.mem_map.mp hup
        exact Or.inr (Or.inl rfl)
      · exact Or.inr (Or.inr htarget)

theorem mem_wayFrom {base : List Component} {target : List String} {s : String}
    (hs : s ∈ wayFrom base target) : s = ".." ∨ s ∈ target := by
  cases hsteps : stepsFrom? [] (target.map .name) base with
  | none =>
    rw [wayFrom_of_none hsteps] at hs
    exact Or.inr hs
  | some steps =>
    rw [wayFrom_of_steps hsteps] at hs
    obtain ⟨c, hc, rfl⟩ := List.mem_map.mp hs
    rcases mem_stepsFrom? hsteps hc with htaken | rfl | htarget
    · cases htaken
    · exact Or.inl rfl
    · obtain ⟨name, hname, rfl⟩ := List.mem_map.mp htarget
      exact Or.inr hname

theorem count_up_append {names : List String} (h : ".." ∉ names) (up : Nat) :
    (List.replicate up ".." ++ names).count ".." = up := by
  rw [List.count_append, List.count_replicate_self, List.count_eq_zero.mpr h, Nat.add_zero]

/-- The way from a directory tells directories of names apart. -/
theorem wayFrom_injective_of_notMem {base : List Component} (hbase : .current ∉ base)
    {target target' : List String} (h : ".." ∉ target) (h' : ".." ∉ target')
    (heq : wayFrom base target = wayFrom base target') : target = target' := by
  have hdrop : ∀ {names : List String} (n : Nat), ".." ∉ names → ".." ∉ names.drop n :=
    fun n hnames hmem => hnames (List.mem_of_mem_drop hmem)
  -- A base that climbs is not shared, so it is left by at least one step up.
  have hclimbs : ∀ {names : List String} {n : Nat}, names.map .name = base.take n →
      .parent ∈ base → n ≤ base.length → base.length - n ≠ 0 := by
    intro names n htake hparent hle hzero
    rw [List.take_of_length_le (by omega)] at htake
    obtain ⟨name, -, hname⟩ := List.mem_map.mp (htake ▸ hparent)
    cases hname
  obtain ⟨n, htake, hle, hway⟩ := wayFrom_names target hbase
  obtain ⟨n', htake', hle', hway'⟩ := wayFrom_names target' hbase
  rcases hway with hway | ⟨hway, hparent⟩ <;> rcases hway' with hway' | ⟨hway', hparent'⟩ <;>
    rw [hway, hway'] at heq
  · have hcount := congrArg (List.count "..") heq
    rw [count_up_append (hdrop n h), count_up_append (hdrop n' h')] at hcount
    obtain rfl : n = n' := by omega
    have hrest : target.drop n = target'.drop n := List.append_cancel_left heq
    have hfirst : target.take n = target'.take n := by
      have hnames := congrArg (List.map Component.text) (htake.trans htake'.symm)
      rwa [map_text_names, map_text_names] at hnames
    rw [← List.take_append_drop n target, hfirst, hrest, List.take_append_drop]
  · have hcount := congrArg (List.count "..") heq
    rw [count_up_append (hdrop n h), List.count_eq_zero.mpr h'] at hcount
    exact absurd hcount (hclimbs htake hparent' hle)
  · have hcount := congrArg (List.count "..") heq
    rw [count_up_append (hdrop n' h'), List.count_eq_zero.mpr h] at hcount
    exact absurd hcount.symm (hclimbs htake' hparent hle')
  · exact heq

theorem wayFrom_injective_of_current {base : List Component} (hbase : .current ∉ base)
    {target target' : List String} (h : ".." ∉ target) (h' : ".." ∉ target')
    (heq : wayFrom (.current :: base) target = wayFrom (.current :: base) target') :
    target = target' := by
  obtain ⟨hnil, hcons⟩ := wayFrom_current base hbase
  -- A way that goes nowhere starts with a step up, and no other one does.
  have hdown : ∀ {s rest}, ".." ∉ s :: rest →
      wayFrom (.current :: base) (s :: rest) ≠ wayFrom (.current :: base) [] := by
    intro s rest hnames hsame
    rw [hnil] at hsame
    rcases hcons s rest with hway | ⟨hway, -⟩ <;> rw [hway] at hsame <;>
      exact hnames ((List.cons.inj hsame).1 ▸ List.mem_cons_self)
  have hup : ∀ {rest rest' : List String}, ".." ∉ rest' → base ≠ [] →
      List.replicate base.length ".." ++ rest ≠ rest' := by
    rintro rest rest' hnames hne rfl
    cases base with
    | nil => exact hne rfl
    | cons b base => exact hnames (by simp)
  cases target with
  | nil =>
    cases target' with
    | nil => rfl
    | cons s' rest' => exact absurd heq.symm (hdown h')
  | cons s rest =>
    cases target' with
    | nil => exact absurd heq (hdown h)
    | cons s' rest' =>
      have hrest : ".." ∉ rest := fun hmem => h (List.mem_cons_of_mem _ hmem)
      have hrest' : ".." ∉ rest' := fun hmem => h' (List.mem_cons_of_mem _ hmem)
      rcases hcons s rest with hway | ⟨hway, hne⟩ <;>
        rcases hcons s' rest' with hway' | ⟨hway', hne'⟩ <;> rw [hway, hway'] at heq <;>
        obtain ⟨rfl, htail⟩ := List.cons.inj heq
      · rw [List.append_cancel_left htail]
      · exact absurd htail (hup hrest' hne')
      · exact absurd htail.symm (hup hrest hne)
      · rw [htail]

/-- The way from a directory that is not absolute tells directories of names apart. -/
theorem wayFrom_injective {path : String} (hpath : isAbsolute path = false)
    {target target' : List String} (h : ".." ∉ target) (h' : ".." ∉ target')
    (heq : wayFrom (components path) target = wayFrom (components path) target') :
    target = target' := by
  obtain ⟨rest, hrest, hbase | hbase⟩ := components_of_relative hpath <;> rw [hbase] at heq
  · exact wayFrom_injective_of_notMem hrest h h' heq
  · exact wayFrom_injective_of_current hrest h h' heq

end Directory

namespace Path

open Directory

variable {p q base : Path}

/-! ## Texts of plain paths -/

theorem eq_of_segments_eq (h : p.segments = q.segments) : p = q := by
  cases p
  cases q
  exact congrArg _ h

theorem eq_of_dotted_eq (hp : p.Plain) (hq : q.Plain) (h : p.dotted = q.dotted) : p = q :=
  eq_of_segments_eq <| Text.join_injective '.'
    (fun s hs => ⟨(hp s hs).nonempty, (hp s hs).noDot⟩)
    (fun s hs => ⟨(hq s hs).nonempty, (hq s hs).noDot⟩) h

/-! ## Texts of proper paths -/

/-- The names on the way to a path from another one. -/
def namesFrom (p base : Path) : List String :=
  if isAbsolute base.location then p.segments
  else wayFrom (components base.location) p.segments

theorem mem_namesFrom {s : String} (hs : s ∈ p.namesFrom base) : s = ".." ∨ s ∈ p.segments := by
  rw [namesFrom] at hs
  split at hs
  · exact Or.inr hs
  · exact mem_wayFrom hs

theorem namesFrom_solid (hp : p.Proper) : ∀ s ∈ p.namesFrom base, Solid s := by
  intro s hs
  rcases mem_namesFrom hs with rfl | hs
  · exact ⟨by decide, by decide⟩
  · exact ProperName.solid (hp s hs)

theorem location_eq (hp : p.Proper) : p.location = Text.join "/" p.segments :=
  joinNames_eq fun s hs => ProperName.solid (hp s hs)

/-- The directory of a proper path as seen from another one. -/
theorem locationFrom_eq (hp : p.Proper) (base : Path) :
    p.locationFrom base = Text.join "/" (p.namesFrom base) := by
  have hsolid : ∀ s ∈ p.segments, Solid s := fun s hs => ProperName.solid (hp s hs)
  have habs : isAbsolute p.location = false := by
    rw [location_eq hp]
    exact join_not_absolute hsolid
  have hcomponents : components p.location = p.segments.map .name := components_joinNames hp
  have hnames : ∀ s ∈ p.namesFrom base, Solid s := namesFrom_solid hp
  rw [locationFrom, relative?, habs, hcomponents]
  rw [namesFrom] at hnames ⊢
  cases hbase : isAbsolute base.location with
  | true => simp only [Bool.false_eq_true, if_false, if_true, Option.getD_none, location_eq hp]
  | false =>
    simp only [hbase, Bool.false_eq_true, if_false, if_true] at hnames ⊢
    cases hsteps : stepsFrom? [] (p.segments.map .name) (components base.location) with
    | none => rw [Option.map_none, Option.getD_none, wayFrom_of_none hsteps, location_eq hp]
    | some steps =>
      rw [wayFrom_of_steps hsteps] at hnames ⊢
      rw [Option.map_some, Option.getD_some, ofComponents, joinNames_eq hnames]

theorem eq_of_locationFrom_eq (hp : p.Proper) (hq : q.Proper)
    (h : p.locationFrom base = q.locationFrom base) : p = q := by
  rw [locationFrom_eq hp, locationFrom_eq hq] at h
  have hnames : p.namesFrom base = q.namesFrom base :=
    Text.join_injective '/' (namesFrom_solid hp) (namesFrom_solid hq) h
  have hdown : ∀ {p : Path}, p.Proper → ".." ∉ p.segments :=
    fun hp hmem => (hp _ hmem).notParent rfl
  rw [namesFrom, namesFrom] at hnames
  split at hnames
  · exact eq_of_segments_eq hnames
  · next habs =>
    exact eq_of_segments_eq
      (wayFrom_injective (by simpa using habs) (hdown hp) (hdown hq) hnames)

theorem locationFrom_self (p : Path) : p.locationFrom p = "" := by
  rw [locationFrom, relative?, if_pos rfl, stepsFrom?_self]
  rfl

/-- Only the namespace itself is the current directory. -/
theorem isHere_iff (hp : p.Proper) (hbase : base.Proper) : p.isHere base = true ↔ p = base := by
  have hhere : p.isHere base = true ↔ p.locationFrom base = "" := by
    simp [isHere, directory]
  rw [hhere]
  constructor
  · intro h
    exact eq_of_locationFrom_eq hp hbase (h.trans (locationFrom_self base).symm)
  · rintro rfl
    exact locationFrom_self p

theorem withForwardSlashes_locationFrom (hp : p.Proper) (base : Path) :
    withForwardSlashes (p.locationFrom base) = p.locationFrom base := by
  have hnone : ∀ c ∈ (p.locationFrom base).toList, c ≠ '\\' := by
    rw [locationFrom_eq hp]
    rintro c hc rfl
    rcases Text.mem_join hc with hc | ⟨s, hs, hc⟩
    · exact absurd hc (by decide)
    · rcases mem_namesFrom hs with rfl | hs
      · exact absurd hc (by decide)
      · exact (hp s hs).noBackslash hc
  rw [withForwardSlashes, List.map_congr_left fun c hc => if_neg (hnone c hc), List.map_id',
    String.ofList_toList]

/-- Module specifiers tell proper paths apart. -/
theorem eq_of_specifierFrom_eq {home : Path} (hp : p.Proper) (hq : q.Proper)
    (h : p.specifierFrom home = q.specifierFrom home) : p = q := by
  have hlocation : withForwardSlashes (p.locationFrom home) =
      withForwardSlashes (q.locationFrom home) := by
    simpa [specifierFrom, directory] using h
  rw [withForwardSlashes_locationFrom hp, withForwardSlashes_locationFrom hq] at hlocation
  exact eq_of_locationFrom_eq hp hq hlocation

end Path

end SchemaTypes
