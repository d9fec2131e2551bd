import SchemaLang.Proofs.Compiler.Refusal
import SchemaLang.Proofs.Outline.Plain

/-! Every message is a single line. What a message quotes is a token of the text or the beginning
of a word, and no line ends inside of either. Only the name of the source can bring a line feed. -/
namespace SchemaLang

theorem Clear.append (first : Clear t) (later : Clear u) : Clear (t ++ u) :=
  clear_append.mpr ⟨first, later⟩

namespace Grammar

variable {text : String} {tree : ParseTree.Specification Position}

end Grammar

namespace Compiler

end Compiler
end SchemaLang
