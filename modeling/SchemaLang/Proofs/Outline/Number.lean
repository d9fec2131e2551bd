import SchemaLang.Proofs.Compiler.Image
import SchemaLang.Proofs.ParseTree.Respelling
import SchemaLang.Proofs.ParseTree.Tokens
import SchemaLang.Schema.Outline

/-! The numbers of an outline are literals of the language with the values they show. So a tree can
be spelled like its outline and is still assembled to the same schema. -/
namespace SchemaLang

open Literal

/-- The text is one literal to its end, and what is read from it is the value. -/
structure ReadsBack (read : String → Except BuildError α) (text : String) (v : α) : Prop where
  literal : Scan.intLiteral text.toList = .found text.toList []
  value : read text = .ok v

theorem IsIntLiteral.taken (number : IsIntLiteral t) :
    Scan.intLiteral t.toList = .found t.toList [] := by
  refine Scan.intLiteral_found_iff.mpr ⟨t.toList.append_nil.symm, ?_, wordEnds_nil⟩
  rwa [String.ofList_toList]

theorem typeId_reads_back (v : Int32) : ReadsBack (parseInt ∘ some) (writeHex v) v := by
  refine ⟨(isIntLiteral_writeHex v).taken, ?_⟩
  rw [Function.comp_apply, parseInt, readInt_writeHex]
  rfl

theorem discriminant_reads_back (v : Int32) : ReadsBack (parseInt ∘ some) (writeDecimal v) v := by
  refine ⟨(isIntLiteral_writeDecimal v).taken, ?_⟩
  rw [Function.comp_apply, parseInt, readInt_writeDecimal]
  rfl

theorem size_reads_back (positive : 1 ≤ n.toNat) :
    ReadsBack parseSize (OctetsSize.fixed n).text n := by
  refine ⟨(isIntLiteral_write n.toNat).taken, ?_⟩
  rw [parseSize, OctetsSize.text, readSize_write positive]
  rfl

theorem Assembler.build_respelled {a b : Assembler} (built : (a.build tree).1.result = .ok s) :
    (b.build tree.respelled).1.result = .ok s := by
  have result (a : Assembler) tree : (a.build tree).1.result = settle tree.faults tree.meaning :=
    (Assembly.specification_runs tree).settles
  rw [result, settle_eq_ok_iff] at built
  obtain ⟨faultless, means⟩ := built
  rw [result, settle_eq_ok_iff]
  exact ⟨ParseTree.Specification.faults_respelled faultless, tree.meaning_respelled.trans means⟩

/-- The number that a struct, a case or an octets member shows reads back to the number it has, and
a tree that is assembled stays the same schema when its numbers are spelled this way. -/
theorem outline_numbers_read_back :
    (∀ (level : Nat) (s : Struct), ∃ supertype,
      Outline.struct level s =
        ⟨level, "struct " ++ s.name ++ " [" ++ writeHex s.typeId ++ "]" ++ supertype⟩ ::
          s.members.map (Outline.member (level + 1)) ∧
      ReadsBack (parseInt ∘ some) (writeHex s.typeId) s.typeId) ∧
    (∀ (level : Nat) (c : Case),
      Outline.unionCase level c =
        ⟨level, "case " ++ writeDecimal c.value ++ ":"⟩ ::
          c.members.map (Outline.member (level + 1)) ∧
      ReadsBack (parseInt ∘ some) (writeDecimal c.value) c.value) ∧
    (∀ (level : Nat) (m : Member) (n : UInt32), m.octets = some (.fixed n) → 1 ≤ n.toNat →
      ∃ widened,
        Outline.member level m =
          ⟨level, m.name ++ ": " ++ m.type.text ++ ("[" ++ (OctetsSize.fixed n).text ++ "]") ++
            widened⟩ ∧
        ReadsBack parseSize (OctetsSize.fixed n).text n) ∧
    ∀ (a b : Assembler) (tree : ParseTree.Specification Position) (s : Specification),
      (a.build tree).1.result = .ok s → (b.build tree.respelled).1.result = .ok s := by
  refine ⟨fun level s => ⟨_, rfl, typeId_reads_back s.typeId⟩,
    fun level c => ⟨rfl, discriminant_reads_back c.value⟩, ?_,
    fun a b tree s => Assembler.build_respelled⟩
  rintro level ⟨name, type, octets⟩ n fixed positive
  obtain rfl : octets = some (.fixed n) := fixed
  exact ⟨_, rfl, size_reads_back positive⟩

/-- Not one of its numbers is spelled as an outline spells it. -/
def paddedTree : ParseTree.Specification Position :=
  let word (text : String) : Token Position := ⟨text, ⟨1, 1⟩⟩
  let data : ParseTree.Member Position :=
    ⟨.octets (word "octets") (some (word "016")) none, word "data"⟩
  let record : ParseTree.Struct Position := ⟨word "S", some (word "10"), none, [data]⟩
  let choice : ParseTree.Union Position := ⟨word "U", none, [⟨word "0x1F", [data]⟩]⟩
  ⟨[⟨word "s", [.declaration (.struct record), .declaration (.union choice)]⟩]⟩

def paddedSchema : Specification :=
  let data : Member := ⟨"data", .builtin .octets, some (.fixed 16)⟩
  let record : Struct := ⟨"S", 10, none, [data]⟩
  let choice : Union := ⟨"U", [⟨31, [data]⟩]⟩
  ⟨[⟨"s", 0, [], [], [record], [choice]⟩]⟩

theorem outline_numbers_read_back_padded :
    (1 ≤ (16 : UInt32).toNat ∧ ReadsBack parseSize (OctetsSize.fixed 16).text 16) ∧
    (Assembler.build {} paddedTree).1.result = .ok paddedSchema ∧
      (Assembler.build {} paddedTree.respelled).1.result = .ok paddedSchema := by
  obtain ⟨-, -, sizes, trees⟩ := outline_numbers_read_back
  have built : (Assembler.build {} paddedTree).1.result = .ok paddedSchema := rfl
  obtain ⟨-, -, size⟩ := sizes 0 ⟨"data", .builtin .octets, some (.fixed 16)⟩ 16 rfl (by decide)
  exact ⟨⟨by decide, size⟩, built, trees {} {} paddedTree paddedSchema built⟩

example : paddedTree.respelled.tokens.map Token.text =
    ["s", "S", "0xa", "octets", "16", "data", "U", "31", "octets", "16", "data"] := by decide

end SchemaLang
