import SchemaLang.Proofs.Literal.Numeral
import SchemaLang.Proofs.ParseTree.Meaning
import SchemaLang.Proofs.Schema.Derivation

/-! A tree with its numbers spelled as an outline spells them. What a number was before does not
matter: the tree means what it meant, and a tree without faults gets none. -/
namespace SchemaLang

variable {π : Type}

namespace Token

def asTypeId (t : Token π) : Token π := ⟨Literal.writeHex t.number, t.place⟩

def asDiscriminant (t : Token π) : Token π := ⟨Literal.writeDecimal t.number, t.place⟩

def asSize (t : Token π) : Token π := ⟨(OctetsSize.fixed t.size).text, t.place⟩

@[simp] theorem number_asTypeId (t : Token π) : t.asTypeId.number = t.number := by
  rw [number, asTypeId, Literal.readInt_writeHex]
  rfl

@[simp] theorem number_asDiscriminant (t : Token π) : t.asDiscriminant.number = t.number := by
  rw [number, asDiscriminant, Literal.readInt_writeDecimal]
  rfl

@[simp] theorem faults_asTypeId (t : Token π) : t.asTypeId.faults Literal.readInt = [] := by
  rw [faults, asTypeId, Literal.readInt_writeHex]

@[simp] theorem faults_asDiscriminant (t : Token π) :
    t.asDiscriminant.faults Literal.readInt = [] := by
  rw [faults, asDiscriminant, Literal.readInt_writeDecimal]

theorem readSize_asSize {t : Token π} (read : Literal.readSize t.text.toList = .ok n) :
    Literal.readSize t.asSize.text.toList = .ok n := by
  have same : t.size = n := by
    rw [size, read]
    rfl
  rw [asSize, same]
  exact Literal.readSize_write (Literal.one_le_of_readSize read)

/-- A size that is refused counts as zero, and zero is refused again. -/
@[simp] theorem size_asSize (t : Token π) : t.asSize.size = t.size := by
  cases read : Literal.readSize t.text.toList with
  | ok n => rw [size, readSize_asSize read, size, read]
  | error fault =>
    have zero : t.size = 0 := by
      rw [size, read]
      rfl
    have again : Literal.readSize (OctetsSize.fixed 0).text.toList = .error .zeroSize := by decide
    rw [size, asSize, zero, again]
    rfl

theorem faults_asSize {t : Token π} (faultless : t.faults Literal.readSize = []) :
    t.asSize.faults Literal.readSize = [] := by
  obtain ⟨n, read⟩ := faults_eq_nil_iff.mp faultless
  exact faults_eq_nil_iff.mpr ⟨n, readSize_asSize read⟩

end Token

namespace ParseTree

def TypeSpec.respelled : TypeSpec π → TypeSpec π
  | .octets keyword size sizeField => .octets keyword (size.map Token.asSize) sizeField
  | .primitive kind keyword => .primitive kind keyword
  | .named name => .named name

def Member.respelled (m : Member π) : Member π := ⟨m.type.respelled, m.name⟩

def Struct.respelled (s : Struct π) : Struct π :=
  ⟨s.name, s.typeId.map Token.asTypeId, s.supertype, s.members.map Member.respelled⟩

def Case.respelled (c : Case π) : Case π :=
  ⟨c.value.asDiscriminant, c.members.map Member.respelled⟩

def Union.respelled (u : Union π) : Union π :=
  ⟨u.name, u.discriminantType, u.cases.map Case.respelled⟩

def Declaration.respelled : Declaration π → Declaration π
  | .enum e => .enum e
  | .struct s => .struct s.respelled
  | .union u => .union u.respelled

mutual
def Item.respelled : Item π → Item π
  | .scope name items => .scope name (Item.allRespelled items)
  | .declaration d => .declaration d.respelled
def Item.allRespelled : List (Item π) → List (Item π)
  | [] => []
  | i :: is => i.respelled :: Item.allRespelled is
end

def Scope.respelled (s : Scope π) : Scope π := ⟨s.name, Item.allRespelled s.items⟩

def Specification.respelled (s : Specification π) : Specification π :=
  ⟨s.scopes.map Scope.respelled⟩

theorem Item.allRespelled_eq (items : List (Item π)) :
    Item.allRespelled items = items.map Item.respelled := by
  induction items with
  | nil => rfl
  | cons i is ih => rw [Item.allRespelled, ih, List.map_cons]

@[simp] theorem Member.meaning_respelled (m : Member π) : m.respelled.meaning = m.meaning := by
  obtain ⟨type, name⟩ := m
  cases type with
  | primitive | named => rfl
  | octets keyword size field =>
    cases size with
    | none => cases field <;> rfl
    | some size => simp [meaning, respelled, TypeSpec.respelled, TypeSpec.type, TypeSpec.shape]

@[simp] theorem Struct.meaning_respelled (s : Struct π) : s.respelled.meaning = s.meaning := by
  simp [meaning, respelled, Function.comp_def]

@[simp] theorem Case.meaning_respelled (c : Case π) : c.respelled.meaning = c.meaning := by
  simp [meaning, respelled, Function.comp_def]

@[simp] theorem Union.meaning_respelled (u : Union π) : u.respelled.meaning = u.meaning := by
  simp [meaning, respelled, Function.comp_def]

@[simp] theorem Item.enum?_respelled (i : Item π) : i.respelled.enum? = i.enum? := by
  cases i with
  | scope => rfl
  | declaration d => cases d <;> rfl

@[simp] theorem Item.struct?_respelled (i : Item π) :
    i.respelled.struct? = i.struct?.map Struct.respelled := by
  cases i with
  | scope => rfl
  | declaration d => cases d <;> rfl

@[simp] theorem Item.union?_respelled (i : Item π) :
    i.respelled.union? = i.union?.map Union.respelled := by
  cases i with
  | scope => rfl
  | declaration d => cases d <;> rfl

@[simp] theorem Item.enums_respelled (items : List (Item π)) :
    Item.enums (Item.allRespelled items) = Item.enums items := by
  simp [Item.enums, Item.allRespelled_eq, List.filterMap_map]

@[simp] theorem Item.structs_respelled (items : List (Item π)) :
    Item.structs (Item.allRespelled items) = Item.structs items := by
  simp [Item.structs, Item.allRespelled_eq, List.filterMap_map, List.map_filterMap,
    Function.comp_def]

@[simp] theorem Item.unions_respelled (items : List (Item π)) :
    Item.unions (Item.allRespelled items) = Item.unions items := by
  simp [Item.unions, Item.allRespelled_eq, List.filterMap_map, List.map_filterMap,
    Function.comp_def]

mutual
theorem Item.scope?_respelled (i : Item π) (depth : Nat) :
    i.respelled.scope? depth = i.scope? depth := by
  cases i with
  | declaration d => rfl
  | scope name items =>
    simp only [Item.respelled, Item.scope?, Item.scopes_respelled items, Item.enums_respelled,
      Item.structs_respelled, Item.unions_respelled]
theorem Item.scopes_respelled (items : List (Item π)) (depth : Nat) :
    Item.scopes depth (Item.allRespelled items) = Item.scopes depth items := by
  cases items with
  | nil => rfl
  | cons i is =>
    rw [Item.allRespelled, Item.scopes, Item.scopes, i.scope?_respelled, Item.scopes_respelled is]
end

theorem Scope.meaning_respelled (s : Scope π) (depth : Nat) :
    s.respelled.meaning depth = s.meaning depth := by
  simp only [Scope.meaning, Scope.respelled, Item.scopes_respelled, Item.enums_respelled,
    Item.structs_respelled, Item.unions_respelled]

theorem Specification.meaning_respelled (s : Specification π) :
    s.respelled.meaning = s.meaning := by
  simp [Specification.meaning, Specification.respelled, Function.comp_def,
    Scope.meaning_respelled]

/-- Parts without faults that stay so one by one stay so together. -/
theorem flatMap_faultless {faults : α → List (Fault π)} {respelled : α → α}
    (each : ∀ a, faults a = [] → faults (respelled a) = []) {as : List α}
    (faultless : as.flatMap faults = []) : (as.map respelled).flatMap faults = [] := by
  rw [List.flatMap_eq_nil_iff] at faultless
  rw [List.flatMap_map, List.flatMap_eq_nil_iff]
  exact fun a mem => each a (faultless a mem)

theorem TypeSpec.faults_respelled {t : TypeSpec π} (faultless : t.faults = []) :
    t.respelled.faults = [] := by
  cases t with
  | primitive | named => exact faultless
  | octets keyword size field =>
    cases size with
    | none => exact faultless
    | some size =>
      cases field with
      | none => exact Token.faults_asSize faultless
      | some field => simp [faults] at faultless

theorem members_faultless {members : List (Member π)}
    (faultless : members.flatMap (·.type.faults) = []) :
    (members.map Member.respelled).flatMap (·.type.faults) = [] := by
  have each (m : Member π) (faultless : m.type.faults = []) : m.respelled.type.faults = [] :=
    TypeSpec.faults_respelled faultless
  exact flatMap_faultless each faultless

theorem Struct.faults_respelled {s : Struct π} (faultless : s.faults = []) :
    s.respelled.faults = [] := by
  have members := members_faultless (List.append_eq_nil_iff.mp faultless).2
  cases same : s.typeId <;> simp [faults, respelled, same, members]

theorem Case.faults_respelled {c : Case π} (faultless : c.faults = []) :
    c.respelled.faults = [] := by
  have members := members_faultless (List.append_eq_nil_iff.mp faultless).2
  simp [faults, respelled, members]

theorem Declaration.faults_respelled {d : Declaration π} (faultless : d.faults = []) :
    d.respelled.faults = [] := by
  cases d with
  | enum => rfl
  | struct s => exact Struct.faults_respelled faultless
  | union u =>
    have each (c : Case π) : c.faults = [] → c.respelled.faults = [] := Case.faults_respelled
    exact flatMap_faultless each faultless

mutual
theorem Item.faults_respelled {i : Item π} (faultless : i.faults = []) :
    i.respelled.faults = [] := by
  cases i with
  | declaration d => exact Declaration.faults_respelled faultless
  | scope name items => exact Item.allFaults_respelled faultless
theorem Item.allFaults_respelled {items : List (Item π)} (faultless : Item.allFaults items = []) :
    Item.allFaults (Item.allRespelled items) = [] := by
  cases items with
  | nil => rfl
  | cons i is =>
    obtain ⟨first, others⟩ := List.append_eq_nil_iff.mp faultless
    rw [Item.allRespelled, Item.allFaults, Item.faults_respelled first,
      Item.allFaults_respelled others, List.append_nil]
end

theorem Specification.faults_respelled {s : Specification π} (faultless : s.faults = []) :
    s.respelled.faults = [] := by
  have each (scope : Scope π) (faultless : Item.allFaults scope.items = []) :
      Item.allFaults scope.respelled.items = [] := Item.allFaults_respelled faultless
  exact flatMap_faultless each faultless

end ParseTree
end SchemaLang
