/-!
# Ordered tables

A table pairs names with entries and keeps the order in which the names came.
Documents are read into tables, and everything the generator prints from a
table is printed in that order.

`Table.put` is the one way an entry gets in.  A name that is already there
keeps its place and takes the new entry.  A new name goes to the end.  So a
table built by `put` names nothing twice, and `names_nodup_put` says so.  The
tables that are read from a document are built that way (`ofPairs`).
-/

namespace SchemaTypes

/-- Names with their entries, in order. -/
abbrev Table (α : Type) := List (String × α)

namespace Table

variable {α β : Type}

/-- The names, in order. -/
def names (t : Table α) : List String := t.map (·.1)

/-- The entries, in order. -/
def entries (t : Table α) : List α := t.map (·.2)

/-- The entry of a name: the first one, should the name stand there twice. -/
def get? : Table α → String → Option α
  | [], _ => none
  | (n, a) :: rest, name => if n = name then some a else get? rest name

/-- Whether the name has an entry. -/
def has (t : Table α) (name : String) : Bool := (t.get? name).isSome

/-- Sets the entry of a name.  A known name keeps its place, a new one goes to
the end. -/
def put : Table α → String → α → Table α
  | [], name, a => [(name, a)]
  | (n, b) :: rest, name, a => if n = name then (n, a) :: rest else (n, b) :: put rest name a

/-- Sets every entry of the second table, in its order. -/
def putAll (t : Table α) (u : Table α) : Table α :=
  u.foldl (fun t entry => t.put entry.1 entry.2) t

/-- The table that a list of pairs stands for when the last entry of a name
wins and its first place is kept. -/
def ofPairs (pairs : List (String × α)) : Table α := putAll [] pairs

/-! ## What `put` does to look-ups and to the names -/

@[simp] theorem names_nil : names ([] : Table α) = [] := rfl

@[simp] theorem names_cons (n : String) (a : α) (t : Table α) :
    names ((n, a) :: t) = n :: names t := rfl

theorem get?_put (t : Table α) (name other : String) (a : α) :
    (t.put name a).get? other = if name = other then some a else t.get? other := by
  induction t with
  | nil => rfl
  | cons entry rest ih =>
    obtain ⟨n, b⟩ := entry
    by_cases h : n = name
    · subst h
      by_cases h' : n = other <;> simp [put, get?, h']
    · by_cases h' : n = other
      · subst h'
        simp [put, get?, h, Ne.symm h]
      · simp [put, get?, h, h', ih]

theorem names_put (t : Table α) (name : String) (a : α) :
    names (t.put name a) = if name ∈ names t then names t else names t ++ [name] := by
  induction t with
  | nil => rfl
  | cons entry rest ih =>
    obtain ⟨n, b⟩ := entry
    by_cases h : n = name
    · simp [put, h]
    · by_cases h' : name ∈ names rest
      · simp [put, h, ih, h']
      · simp [put, h, ih, h', Ne.symm h]

theorem names_nodup_put {t : Table α} (h : (names t).Nodup) (name : String) (a : α) :
    (names (t.put name a)).Nodup := by
  rw [names_put]
  split
  · exact h
  · next h' =>
    rw [List.nodup_append]
    refine ⟨h, by simp, ?_⟩
    intro x hx y hy hxy
    simp only [List.mem_singleton] at hy
    subst hy hxy
    exact h' hx

theorem names_nodup_putAll {t : Table α} (h : (names t).Nodup) (u : Table α) :
    (names (t.putAll u)).Nodup := by
  induction u generalizing t with
  | nil => exact h
  | cons entry rest ih => exact ih (names_nodup_put h entry.1 entry.2)

theorem names_nodup_ofPairs (pairs : List (String × α)) : (names (ofPairs pairs)).Nodup :=
  names_nodup_putAll (t := []) List.nodup_nil pairs

theorem mem_names_iff (t : Table α) (name : String) :
    name ∈ names t ↔ t.has name = true := by
  induction t with
  | nil => simp [has, get?]
  | cons entry rest ih =>
    obtain ⟨n, b⟩ := entry
    by_cases h : n = name
    · simp [has, get?, h]
    · simp only [names_cons, List.mem_cons, ih, has, get?, h, if_false]
      simp [Ne.symm h]

end Table

end SchemaTypes
