import SchemaTypes.Plan.Emission

/-!
# Options that types are written with

The layout of a declaration reads three options: the mode of anonymous
structures, whether properties are optional, and whether wide numbers may be
strings.  Under configurations that agree on them (`Config.SameTypes`) every
declaration has the same code (`Declaration.code_congr`), and so has every
placement.

There is one lemma for each function of the layout, from the text of a type
outwards.
-/

namespace SchemaTypes

/-- Types are written the same way. -/
structure Config.SameTypes (c c' : Config) : Prop where
  mode : c.inlineMode = c'.inlineMode
  optional : c.optionalProperties = c'.optionalProperties
  numbers : c.stringNumbers = c'.stringNumbers

variable {c c' : Config}

/-! ## Types -/

theorem UserDefined.text_congr (h : c.SameTypes c') (u : UserDefined) : u.text c = u.text c' := by
  simp only [UserDefined.text, h.mode]

namespace TypeInfo

mutual

theorem text_congr (h : c.SameTypes c') : ∀ info : TypeInfo, info.text c = info.text c'
  | .builtin _ _ => by simp only [text, h.numbers]
  | .association .. => by simp only [text]
  | .userDefined _ u => by simp only [text, u.text_congr h]
  | .library .. => by simp only [text]
  | .selfReference .. => by simp only [text]
  | .inline _ members => by simp only [text, h.optional, fieldTexts_congr h _ members]
  | .enumeration .. => by simp only [text]
  | .array _ item => by simp only [text, text_congr h item]

theorem fieldTexts_congr (h : c.SameTypes c') (optional : Bool) :
    ∀ members : List (String × TypeInfo),
      fieldTexts c optional members = fieldTexts c' optional members
  | [] => rfl
  | (_, info) :: rest => by
    simp only [fieldTexts, text_congr h info, fieldTexts_congr h optional rest]

end

theorem anonymousText_congr (h : c.SameTypes c') (info : TypeInfo) :
    info.anonymousText c = info.anonymousText c' := by
  cases info with
  | enumeration => rfl
  | _ => exact text_congr h _

/-! ## Properties -/

mutual

theorem flatProperty_congr (h : c.SameTypes c') (style : PropertyStyle) (name type : String) :
    ∀ info : TypeInfo, flatProperty c style name type info = flatProperty c' style name type info
  | .inline _ [] => rfl
  | .inline _ (m :: ms) => by
    simp only [flatProperty, flatMembers_congr h style name (m :: ms)]
  | .builtin .. | .association .. | .userDefined .. | .library .. | .selfReference ..
  | .enumeration .. | .array .. => rfl

theorem flatMembers_congr (h : c.SameTypes c') (style : PropertyStyle) (name : String) :
    ∀ members : List (String × TypeInfo),
      flatMembers c style name members = flatMembers c' style name members
  | [] => rfl
  | (member, info) :: rest => by
    simp only [flatMembers, text_congr h info, flatProperty_congr h style _ _ info,
      flatMembers_congr h style name rest]

end

mutual

theorem nestedProperty_congr (h : c.SameTypes c') (style : PropertyStyle) (name type : String) :
    ∀ info : TypeInfo,
      nestedProperty c style name type info = nestedProperty c' style name type info
  | .inline _ [] => rfl
  | .inline _ (m :: ms) => by
    simp only [nestedProperty, nestedMembers_congr h style.nested (m :: ms)]
  | .builtin .. | .association .. | .userDefined .. | .library .. | .selfReference ..
  | .enumeration .. | .array .. => rfl

theorem nestedMembers_congr (h : c.SameTypes c') (style : PropertyStyle) :
    ∀ members : List (String × TypeInfo),
      nestedMembers c style members = nestedMembers c' style members
  | [] => rfl
  | (member, info) :: rest => by
    simp only [nestedMembers, text_congr h info, nestedProperty_congr h style _ _ info,
      nestedMembers_congr h style rest]

end

theorem propertyCode_congr (h : c.SameTypes c') (style : PropertyStyle) (name type : String)
    (info : TypeInfo) : info.propertyCode c style name type = info.propertyCode c' style name type := by
  simp only [propertyCode, h.mode, flatProperty_congr h, nestedProperty_congr h]

end TypeInfo

theorem Property.code_congr (h : c.SameTypes c') (style : PropertyStyle) :
    Property.code c style = Property.code c' style := by
  funext p
  simp only [Property.code, Property.typeText, TypeInfo.anonymousText_congr h,
    TypeInfo.text_congr h, TypeInfo.propertyCode_congr h]

/-! ## Operations -/

namespace Signature

theorem typeText_congr (h : c.SameTypes c') (p : Parameter) : p.typeText c = p.typeText c' := by
  simp only [Parameter.typeText, TypeInfo.anonymousText_congr h]

theorem resultText_congr (h : c.SameTypes c') (s : Signature) :
    s.resultText c = s.resultText c' := by
  simp only [resultText, TypeInfo.anonymousText_congr h]

theorem code_congr (h : c.SameTypes c') (s : Signature) : s.code c = s.code c' := by
  have hfield : field c = field c' := by
    funext p
    simp only [field, typeText_congr h]
  have hpositional : positional c = positional c' := by
    funext p
    simp only [positional, typeText_congr h]
  simp only [code, members, positionalCall, namedCall, parameterType, callResult, hfield,
    hpositional, resultText_congr h]

end Signature

theorem BoundAction.code_congr (h : c.SameTypes c') : BoundAction.code c = BoundAction.code c' := by
  funext a
  simp only [BoundAction.code, Signature.code_congr h]

/-! ## Declarations -/

theorem Aspect.code_congr (h : c.SameTypes c') (a : Aspect) : a.code c = a.code c' := by
  simp only [Aspect.code, Aspect.style, Aspect.actionCode, h.optional, Property.code_congr h,
    BoundAction.code_congr h]

theorem Declaration.code_congr (h : c.SameTypes c') (d : Declaration) : d.code c = d.code c' := by
  cases d with
  | aspect a => exact a.code_congr h
  | typeAlias _ _ type => simp only [Declaration.code, type.text_congr h]
  | operation _ _ signature => simp only [Declaration.code, signature.code_congr h]
  | event => simp only [Declaration.code, eventCode, Property.code_congr h]
  | _ => rfl

theorem Placement.code_congr (h : c.SameTypes c') (p : Placement) : p.code c = p.code c' := by
  simp only [Placement.code, funext fun d => Declaration.code_congr h d]

end SchemaTypes
