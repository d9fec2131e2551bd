import SchemaLang.ParseTree
import SchemaLang.Proofs.Grammar.TokenClass

/-! The grammar of schemas as derivations. A phrase relates a sequence of tokens to the tree
that it spells; there is no order among alternatives and no bound on repetition, and the trees
carry no places. Only here is it said which texts are schemas. -/
namespace SchemaLang

abbrev Phrase (α : Type) := List String → α → Prop

namespace Phrase

/-- A token of a class, by itself. -/
inductive Terminal (matching : String → Prop) : Phrase (Token Unit) where
  | token : matching t → Terminal matching [t] ⟨t, ()⟩

inductive After (first : String) (phrase : Phrase α) : Phrase α where
  | token : phrase ts a → After first phrase (first :: ts) a

inductive Optional (phrase : Phrase α) : Phrase (Option α) where
  | none : Optional phrase [] none
  | some : phrase ts a → Optional phrase ts (some a)

inductive Many (phrase : Phrase α) : Phrase (List α) where
  | nil : Many phrase [] []
  | cons : phrase ts a → Many phrase us as → Many phrase (ts ++ us) (a :: as)

/-- A mark that may be left out and that the tree does not show. -/
inductive Trailing (mark : String) : List String → Prop where
  | absent : Trailing mark []
  | present : Trailing mark [mark]

inductive EnumValue : Phrase (ParseTree.EnumValue Unit) where
  | value : IsIdentifier name → Optional (After "=" (Terminal IsIntLiteral)) ls literal →
      EnumValue (name :: ls) ⟨⟨name, ()⟩, literal⟩

inductive Enum : Phrase (ParseTree.Enum Unit) where
  | enum : IsIdentifier name → EnumValue vs value → Many (After "," EnumValue) ws values →
      Trailing "," cs →
      Enum ("enum" :: name :: "\x7b" :: (vs ++ ws ++ cs ++ ["\x7d"]))
        ⟨⟨name, ()⟩, value :: values⟩

inductive TypeSpec : Phrase (ParseTree.TypeSpec Unit) where
  | primitive : kind ≠ .octets → TypeSpec [kind.keyword] (.primitive kind ⟨kind.keyword, ()⟩)
  | fixed : IsIntLiteral size →
      TypeSpec ["octets", "[", size, "]"] (.octets ⟨"octets", ()⟩ (some ⟨size, ()⟩) none)
  | sized : IsIdentifier field →
      TypeSpec ["octets", "[", field, "]"] (.octets ⟨"octets", ()⟩ none (some ⟨field, ()⟩))
  | named : IsScopedName name → TypeSpec [name] (.named ⟨name, ()⟩)

inductive Member : Phrase (ParseTree.Member Unit) where
  | member : TypeSpec ts type → IsIdentifier name →
      Member (ts ++ [name, ";"]) ⟨type, ⟨name, ()⟩⟩

inductive TypeId : Phrase (Token Unit) where
  | typeId : IsIntLiteral value → TypeId ["[", value, "]"] ⟨value, ()⟩

inductive Struct : Phrase (ParseTree.Struct Unit) where
  | struct : IsIdentifier name → Optional TypeId is typeId →
      Optional (After "extends" (Terminal IsScopedName)) es supertype → Many Member ms members →
      Struct ("struct" :: name :: (is ++ es ++ "\x7b" :: (ms ++ ["\x7d"])))
        ⟨⟨name, ()⟩, typeId, supertype, members⟩

inductive Case : Phrase (ParseTree.Case Unit) where
  | case : IsIntLiteral value → Many Member ms members →
      Case ("case" :: value :: ":" :: ms) ⟨⟨value, ()⟩, members⟩

/-- The type of the discriminant is any word, reserved ones included. -/
inductive Switch : Phrase (Token Unit) where
  | switch : IsWord type → Switch ["switch", "(", type, ")"] ⟨type, ()⟩

inductive Union : Phrase (ParseTree.Union Unit) where
  | union : IsIdentifier name → Optional Switch ss discriminantType → Many Case cs cases →
      Union ("union" :: name :: (ss ++ "\x7b" :: (cs ++ ["\x7d"])))
        ⟨⟨name, ()⟩, discriminantType, cases⟩

inductive Declaration : Phrase (ParseTree.Declaration Unit) where
  | enum : Enum ts e → Trailing ";" us → Declaration (ts ++ us) (.enum e)
  | struct : Struct ts s → Trailing ";" us → Declaration (ts ++ us) (.struct s)
  | union : Union ts u → Trailing ";" us → Declaration (ts ++ us) (.union u)

inductive Item : Phrase (ParseTree.Item Unit) where
  | scope : IsIdentifier name → Many Item ts items →
      Item ("scope" :: name :: "\x7b" :: (ts ++ ["\x7d"])) (.scope ⟨name, ()⟩ items)
  | declaration : Declaration ts d → Item ts (.declaration d)

inductive Scope : Phrase (ParseTree.Scope Unit) where
  | scope : IsIdentifier name → Many Item ts items →
      Scope ("scope" :: name :: "\x7b" :: (ts ++ ["\x7d"])) ⟨⟨name, ()⟩, items⟩

inductive Specification : Phrase (ParseTree.Specification Unit) where
  | scopes : Scope ts s → Many Scope us more → Specification (ts ++ us) ⟨s :: more⟩

end Phrase
end SchemaLang
