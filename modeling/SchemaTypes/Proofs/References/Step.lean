import SchemaTypes.Proofs.Keys.Elements
import SchemaTypes.Proofs.Outcome
import SchemaTypes.Proofs.References.Resolution
import SchemaTypes.Proofs.Registry

/-!
# What a step refers to

A step of a compilation tracks what it refers to (`Tracked`): the references of
what it gives point to definitions, their namespaces are listed as imports, and
every import that is listed has a definition that gives a type or belongs to a
library that is noted.  A step keeps the definitions that are being written, and
imports and notes are never taken back.

Tracked steps are put together by `Tracked.append`.  Each step of the plan has
one lemma, named after it, up to the body of a class and the signature of an
operation.
-/

namespace SchemaTypes

/-! ## Tracking -/

/-- The keys that are known mention types, and the definition that is being
written gives one. -/
structure Session.Sound (m : Model) (s : Session) : Prop where
  keys : s.keys.From m.MentionsTypes
  current : ∀ n, s.current? = some n → m.GivesType n

theorem Session.Sound.push {m : Model} {s : Session} {name : String} (h : s.Sound m)
    (hname : m.GivesType name) : (s.push name).Sound m where
  keys := h.keys
  current := by
    intro n hn
    rw [Session.current?, Session.push, List.getLast?_concat, Option.some.injEq] at hn
    exact hn ▸ hname

/-- A session comes after another one, with the same definitions being written
and the same libraries. -/
structure Session.Later (m : Model) (s s' : Session) : Prop where
  context : s'.context = s.context
  keys : s.keys.From m.MentionsTypes → s'.keys.From m.MentionsTypes
  libraries : s'.registry.libraries = s.registry.libraries
  noted : ∀ p, s.registry.Refers p → s'.registry.Refers p

namespace Session.Later

variable {m : Model} {s s' s'' : Session}

theorem refl (m : Model) (s : Session) : s.Later m s := ⟨rfl, id, rfl, fun _ => id⟩

theorem trans (h : s.Later m s') (h' : s'.Later m s'') : s.Later m s'' where
  context := h'.context.trans h.context
  keys := fun hk => h'.keys (h.keys hk)
  libraries := h'.libraries.trans h.libraries
  noted := fun p hp => h'.noted p (h.noted p hp)

theorem sound (h : s.Later m s') (hs : s.Sound m) : s'.Sound m where
  keys := h.keys hs.keys
  current := by
    intro n hn
    rw [current?, h.context] at hn
    exact hs.current n hn

end Session.Later

/-- From a session to a later one a step writes, in the file of a namespace,
some references. -/
structure Tracked (m : Model) (home : Path) (s s' : Session) (refs : List Reference) : Prop
    extends s.Later m s' where
  kept : s.imports ⊆ s'.imports
  known : ∀ p ∈ s'.imports, p ∈ s.imports ∨ m.TypeSpace p ∨ s'.registry.Refers p
  points : ∀ ref ∈ refs, m.Points home s'.imports ref

namespace Tracked

variable {m : Model} {home : Path} {s s' s'' : Session} {refs refs' : List Reference}

theorem refl (m : Model) (home : Path) (s : Session) : Tracked m home s s [] where
  toLater := .refl m s
  kept := List.Subset.refl _
  known := fun _ => Or.inl
  points := by simp

theorem append (h : Tracked m home s s' refs) (h' : Tracked m home s' s'' refs') :
    Tracked m home s s'' (refs ++ refs') where
  toLater := h.toLater.trans h'.toLater
  kept := List.Subset.trans h.kept h'.kept
  known := by
    intro p hp
    rcases h'.known p hp with hp | hp
    · exact (h.known p hp).imp_right (Or.imp_right (h'.noted p))
    · exact Or.inr hp
  points := by
    intro ref href
    rcases List.mem_append.mp href with href | href
    · exact (h.points ref href).mono h'.kept
    · exact h'.points ref href

/-- One step and then another that has nothing to refer to. -/
theorem andThen (h : Tracked m home s s' refs) (h' : Tracked m home s' s'' []) :
    Tracked m home s s'' refs := by
  simpa using h.append h'

theorem sound (h : Tracked m home s s' refs) (hs : s.Sound m) : s'.Sound m := h.toLater.sound hs

/-- A definition that gives a type is being written meanwhile. -/
theorem within {name : String} (h : Tracked m home (s.push name) s' refs) :
    Tracked m home s s'.pop refs where
  context := by
    rw [Session.pop, h.context, Session.push]
    exact List.dropLast_concat
  keys := h.keys
  libraries := h.libraries
  noted := h.noted
  kept := h.kept
  known := h.known
  points := h.points

end Tracked

namespace Step

variable {m : Model} {home : Path} {s s' : Session}

end Step

end SchemaTypes
