import SchemaLang.ParseTree

/-! Places of a tree changed one after the other are changed once. -/
namespace SchemaLang

variable {π ρ σ : Type} (g : ρ → σ) (f : π → ρ)

@[simp] theorem Token.map_map (t : Token π) : (t.map f).map g = t.map (fun p => g (f p)) := rfl

namespace ParseTree

@[simp] theorem EnumValue.map_map (v : EnumValue π) :
    (v.map f).map g = v.map (fun p => g (f p)) := by
  simp [EnumValue.map, Function.comp_def]

@[simp] theorem Enum.map_map (e : Enum π) : (e.map f).map g = e.map (fun p => g (f p)) := by
  simp [Enum.map, Function.comp_def]

@[simp] theorem TypeSpec.map_map (t : TypeSpec π) :
    (t.map f).map g = t.map (fun p => g (f p)) := by
  cases t <;> simp [TypeSpec.map, Function.comp_def]

@[simp] theorem Member.map_map (m : Member π) : (m.map f).map g = m.map (fun p => g (f p)) := by
  simp [Member.map]

@[simp] theorem Struct.map_map (s : Struct π) : (s.map f).map g = s.map (fun p => g (f p)) := by
  simp [Struct.map, Function.comp_def]

@[simp] theorem Case.map_map (c : Case π) : (c.map f).map g = c.map (fun p => g (f p)) := by
  simp [Case.map, Function.comp_def]

@[simp] theorem Union.map_map (u : Union π) : (u.map f).map g = u.map (fun p => g (f p)) := by
  simp [Union.map, Function.comp_def]

@[simp] theorem Declaration.map_map (d : Declaration π) :
    (d.map f).map g = d.map (fun p => g (f p)) := by
  cases d <;> simp [Declaration.map]

mutual
theorem Item.map_map : ∀ i : Item π, (i.map f).map g = i.map (fun p => g (f p))
  | .scope name items => by simp [Item.map, Item.mapAll_mapAll items]
  | .declaration d => by simp [Item.map]
theorem Item.mapAll_mapAll : ∀ is : List (Item π),
    Item.mapAll g (Item.mapAll f is) = Item.mapAll (fun p => g (f p)) is
  | [] => rfl
  | i :: is => by simp [Item.mapAll, Item.map_map i, Item.mapAll_mapAll is]
end

@[simp] theorem Scope.map_map (s : Scope π) : (s.map f).map g = s.map (fun p => g (f p)) := by
  simp [Scope.map, Item.mapAll_mapAll]

theorem Specification.map_map (s : Specification π) :
    (s.map f).map g = s.map (fun p => g (f p)) := by
  simp [Specification.map, Function.comp_def]

end ParseTree
end SchemaLang
