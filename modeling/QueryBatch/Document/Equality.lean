import QueryBatch.Document.Basic

/-!
# Equality of documents

Two documents are equal if they have the same structure and equal values, where floating point
numbers are compared as numbers: a value in which the NaN occurs does not equal itself.
-/

namespace QueryBatch

namespace Value

mutual

protected def beq : Value → Value → Bool
  | var a, var b => a == b
  | int a, int b => a == b
  | float a, float b => a == b
  | string a, string b => a == b
  | boolean a, boolean b => a == b
  | null, null => true
  | enum a, enum b => a == b
  | list as, list bs => beqItems as bs
  | object as, object bs => beqEntries as bs
  | _, _ => false

def beqItems : List Value → List Value → Bool
  | [], [] => true
  | a :: as, b :: bs => a.beq b && beqItems as bs
  | _, _ => false

def beqEntries : List (String × Value) → List (String × Value) → Bool
  | [], [] => true
  | (m, a) :: as, (n, b) :: bs => m == n && a.beq b && beqEntries as bs
  | _, _ => false

end

instance : BEq Value := ⟨Value.beq⟩

end Value

instance : BEq Argument := ⟨fun a b => a.name == b.name && a.value == b.value⟩

instance : BEq Directive := ⟨fun a b => a.name == b.name && a.arguments == b.arguments⟩

namespace Field

mutual

protected def beq : Field → Field → Bool
  | ⟨alias₁, name₁, arguments₁, directives₁, selection₁⟩,
    ⟨alias₂, name₂, arguments₂, directives₂, selection₂⟩ =>
    alias₁ == alias₂ && name₁ == name₂ && arguments₁ == arguments₂ &&
      directives₁ == directives₂ && beqSelection selection₁ selection₂

def beqSelection : Option (List Field) → Option (List Field) → Bool
  | none, none => true
  | some fs, some gs => beqFields fs gs
  | _, _ => false

def beqFields : List Field → List Field → Bool
  | [], [] => true
  | f :: fs, g :: gs => f.beq g && beqFields fs gs
  | _, _ => false

end

instance : BEq Field := ⟨Field.beq⟩

end Field

instance : BEq VariableDefinition :=
  ⟨fun v w => v.name == w.name && v.type == w.type && v.default == w.default⟩

instance : BEq Operation :=
  ⟨fun p q => p.kind == q.kind && p.name == q.name && p.definitions == q.definitions &&
    p.fields == q.fields⟩

instance : BEq Document := ⟨fun d e => d.operations == e.operations⟩

end QueryBatch
