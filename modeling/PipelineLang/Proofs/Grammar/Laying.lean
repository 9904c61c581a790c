import PipelineLang.Proofs.Grammar.Accuracy
import PipelineLang.Proofs.Token.FormatLayout
import PipelineLang.Proofs.Token.Laying

/-!
# Expressions that are laid out

The layout of an expression is read as its words, if the words of its single nodes can be read
again.

## Main definitions

- `Expr.Kept` — the words of a single node can be read again
- `Expr.KeptTo` — so can those of the replacements in it, down to a level

## Main results

- `Expr.laidOut` — an expression that is laid out is read as its words
- `Expr.legible_of_keptTo` — the words are read as the expression
-/

namespace PipelineLang

open Lexeme Grammar

/-! ### Nodes whose words are read again -/

/-- Whether a selector is made of names. -/
def Selector.Kept : Selector → Prop
  | .metadata selector => IsName selector.name.name
  | .field selector =>
    (selector.rooted = true ∨ selector.segments ≠ []) ∧
      ∀ segment ∈ selector.segments, IsName segment.name.name

/-- Whether the target of an argument, if it has one, is made of names. -/
def Argument.Kept : Argument → Prop
  | .named target _ _ => target.Kept
  | .positional _ => True

/-- Whether the key of a field is read as it is written, whatever is behind it. -/
def RecordKey.Kept : RecordKey → Prop
  | .identifier name => IsName name.name
  | .string value => StringLiteral.read? value.text = some value ∧
    ∀ replacement before rest, recognizeWith replacement before (value.text.toList ++ rest) =
      .ok ⟨.string, value.text.toList.length⟩

/-- Whether the key of an item of a record, if it has one, is read as it is written. -/
def RecordItem.Kept : RecordItem → Prop
  | .field key _ _ => key.Kept
  | .spread _ _ => True

/-- Whether the name of a function is read as it is written where it is called. -/
def Entity.Kept (entity : Entity) : Prop := IsPath (entity.segments.map (·.name))

theorem Selector.Kept.legible {selector : Selector} (h : selector.Kept) : selector.Legible := by
  cases selector with
  | metadata selector => trivial
  | field selector => exact h.1

theorem Argument.Kept.legible {argument : Argument} (h : argument.Kept) : argument.Legible := by
  cases argument with
  | named target value span => exact Selector.Kept.legible h
  | positional value => trivial

theorem RecordItem.Kept.legible {item : RecordItem} (h : item.Kept) : item.Legible := by
  cases item with
  | field key value span =>
    cases key with
    | identifier name => trivial
    | string value => exact h.1
  | spread value span => trivial

theorem Entity.Kept.segments_ne_nil {entity : Entity} (h : entity.Kept) : entity.segments ≠ [] := by
  intro hnil
  rw [Kept, hnil] at h
  exact h

namespace Expr

/-- Whether the words of a single node are read again as they are, where `inner` holds of the
expressions that are read again within a format string. -/
def Kept (inner : Expr → Prop) : Expr → Prop
  | .literal value _ =>
    Literal.ofText? value.tokenKind value.text = some value ∧
      Word.Recurs (value.tokenKind, value.text)
  | .format segments _ =>
    (∀ segment ∈ segments, segment.Kept) ∧ segments.IsChain Segment.Apart ∧
      ∀ value ∈ segments.filterMap (·.value?), inner value
  | .identifier name _ => IsName name ∧ name ≠ "_"
  | .variable name _ => IsWord name.toList
  | .metadata selector _ => IsName selector.name.name
  | .record items _ => ∀ item ∈ items, item.Kept
  | .member _ name _ _ => IsName name.name
  | .call function arguments _ | .methodCall _ function arguments _ =>
    function.Kept ∧ ∀ argument ∈ arguments, argument.Kept
  | .lambda parameter _ _ => IsName parameter.name
  | _ => True

/-- Whether the words of a node are read again, and those of the replacements in it, which are
at most so many levels deep. -/
def KeptTo : (levels : Nat) → Expr → Prop
  | 0 => Kept fun _ => False
  | levels + 1 => Kept fun value => value.All (KeptTo levels)

/-- Whether an expression in a replacement is kept, where so many levels are left. -/
def InnerKept (levels : Nat) (value : Expr) : Prop :=
  ∃ inner, levels = inner + 1 ∧ value.All (KeptTo inner)

theorem keptTo_eq (levels : Nat) : KeptTo levels = Kept (InnerKept levels) := by
  have hinner : ∀ value, InnerKept levels value ↔
      match levels with
      | 0 => False
      | levels + 1 => value.All (KeptTo levels) := by
    intro value
    cases levels with
    | zero => simp [InnerKept]
    | succ levels => exact ⟨fun ⟨_, hlevels, hall⟩ => Nat.succ.inj hlevels ▸ hall,
        fun hall => ⟨levels, rfl, hall⟩⟩
  rw [funext fun value => propext (hinner value)]
  cases levels <;> rfl

theorem KeptTo.kept {levels : Nat} {value : Expr} (h : value.KeptTo levels) :
    value.Kept (InnerKept levels) := by
  rwa [← keptTo_eq]

theorem Kept.named {inner : Expr → Prop} {value : Expr} (h : value.Kept inner) : value.Named := by
  cases value with
  | call function arguments span => exact h.1.segments_ne_nil
  | _ => trivial

end Expr

variable {replacement : Option TokenKind → List Char → Except LexicalFault Replacement}
  {condition : Before → Prop} {text rest : List Char} {words : List Word} {kind : TokenKind}
  {before : Before}

/-! ### What stands before an operand -/

theorem Before.operand_of_kind (h : kind ∉ .identifier :: Lexeme.statementOpeners)
    (last : Option Char) : Before.Operand ⟨some kind, last⟩ := by
  rw [List.mem_cons, not_or] at h
  refine ⟨fun heq => h.1 (Option.some.inj heq), ?_⟩
  simpa using h.2

theorem Before.Operand.space (h : before.Operand) : Before.Operand ⟨before.previous, some ' '⟩ :=
  ⟨h.name, h.opener⟩

/-! ### Names and targets -/

theorem IsPath.start {names : List String} (h : IsPath names) :
    ∃ c tail, (String.intercalate "::" names).toList = c :: tail ∧ Ascii.isWordStart c := by
  have hname : ∀ {name : String} {rest : List String}, IsName name →
      ∃ c tail, (String.intercalate "::" (name :: rest)).toList = c :: tail ∧
        Ascii.isWordStart c := by
    intro name rest hname
    obtain ⟨c, tail, heq, hc⟩ := hname.start
    cases rest with
    | nil => exact ⟨c, tail, by rw [String.intercalate_singleton, heq], hc⟩
    | cons other rest =>
      refine ⟨c, tail ++ "::".toList ++ (String.intercalate "::" (other :: rest)).toList, ?_, hc⟩
      rw [String.intercalate_cons_cons, String.toList_append, String.toList_append, heq]
      rfl
  match names with
  | [] => exact h.elim
  | [name] => exact hname h
  | [name, last] => exact hname h.1
  | name :: other :: last :: rest => exact hname h.1

/-- The steps of a path, with points between them. -/
theorem laidOut_points {texts : List String} {items : List (List Word)}
    (h : List.Forall₂ (fun text words =>
      LaidOut (recognizeWith replacement) (fun _ => True) text.toList words ∧
        ∃ c tail, text.toList = c :: tail ∧ Ascii.isWordStart c) texts items) :
    LaidOut (recognizeWith replacement) (fun _ => True) (String.intercalate "." texts).toList
      (List.intercalate [(.dot, ".")] items) ∧
    (texts ≠ [] → ∃ c tail, (String.intercalate "." texts).toList = c :: tail ∧
      Ascii.isWordStart c) := by
  induction h with
  | nil => exact ⟨laidOut_nil, fun h => absurd rfl h⟩
  | @cons text words texts items hitem hitems ih =>
    obtain ⟨hlaid, c, tail, htext, hc⟩ := hitem
    cases hitems with
    | nil =>
      rw [String.intercalate_singleton, List.intercalate_singleton]
      exact ⟨hlaid, fun _ => ⟨c, tail, htext, hc⟩⟩
    | @cons other words' texts items hother hothers =>
      obtain ⟨hrest, hstart⟩ := ih
      obtain ⟨d, behind, hbehind, hd⟩ := hstart (by simp)
      rw [String.intercalate_cons_cons, List.intercalate_cons_cons, String.toList_append,
        String.toList_append, List.append_assoc, List.append_assoc]
      exact ⟨hlaid.append (hrest.goesBehind_dot hbehind hd),
        fun _ => ⟨c, tail ++ _, by rw [htext]; rfl, hc⟩⟩

theorem laidOut_step {segment : FieldSegment} (h : IsName segment.name.name) :
    LaidOut (recognizeWith replacement) (fun _ => True) segment.text.toList segment.words ∧
      ∃ c tail, segment.text.toList = c :: tail ∧ Ascii.isWordStart c := by
  obtain ⟨c, tail, hname, hc⟩ := h.start
  obtain ⟨name, optional⟩ := segment
  rw [FieldSegment.text, FieldSegment.words, String.toList_append]
  exact ⟨(laidOut_name h).append (goesBehind_optional optional),
    c, tail ++ _, by rw [hname]; rfl, hc⟩

theorem laidOut_metadata {selector : MetaSelector} (h : IsName selector.name.name) :
    LaidOut (recognizeWith replacement) condition selector.text.toList selector.words := by
  have hname : LaidOut (recognizeWith replacement) (fun _ => True) _ _ := laidOut_name h
  rw [MetaSelector.text, String.toList_append]
  exact hname.mark (by decide) (by decide) trivial

theorem laidOut_this :
    LaidOut (recognizeWith replacement) condition "this".toList [(.kwThis, "this")] :=
  laidOut_keyword rfl

/-- A selector is read as one wherever it stands. -/
theorem Selector.laidOut {selector : Selector} (h : selector.Kept) :
    LaidOut (recognizeWith replacement) condition selector.text.toList selector.words := by
  cases selector with
  | metadata selector => exact laidOut_metadata h
  | field selector =>
    have hsegments : LaidOut (recognizeWith replacement) (fun _ => True) selector.text.toList
        selector.words := by
      refine (laidOut_points ?_).1
      refine List.rel_append ?_ ?_
      · cases selector.rooted with
        | false => exact .nil
        | true => exact .cons ⟨laidOut_this, 't', _, rfl, by decide⟩ .nil
      · rw [List.forall₂_map_left_iff, List.forall₂_map_right_iff, List.forall₂_same]
        exact fun segment hmem => laidOut_step (h.2 segment hmem)
    exact hsegments.mono fun _ _ => trivial

/-! ### Parts of expressions -/

/-- The first character of an expression does not make an equals sign before it another sign. -/
theorem LaidOut.not_sign {word : Word}
    (h : LaidOut (recognizeWith replacement) Before.Operand text (word :: words))
    (hstart : startsArgument word.1) : ∃ c tail, text = c :: tail ∧ c ∉ ['=', '>'] := by
  have hhalts : Halts [] := ⟨by simp, by simp⟩
  obtain ⟨last, hruns⟩ := h 0 ⟨some .lParen, none⟩ [] (Before.operand_of_kind (by decide) _) hhalts
  rw [List.append_nil] at hruns
  cases hruns with
  | cons htoken hlength hkind =>
    cases text with
    | nil =>
      simp only [List.drop_nil] at htoken
      obtain rfl := Except.ok.inj htoken
      simp at hkind
    | cons c tail =>
      refine ⟨c, tail, rfl, fun hc => ?_⟩
      have hgap : Gap.length (c :: tail) = 0 := by
        simp only [List.mem_cons, List.not_mem_nil, or_false] at hc
        obtain rfl | rfl := hc <;> rfl
      rw [hgap, List.drop_zero] at htoken
      have hnot : ∀ kind ∈ [TokenKind.fatArrow, .eqEq, .assign, .gtEq, .gt],
        startsArgument kind = false := by decide
      exact absurd hstart (by simp [hnot _ (kind_of_sign hc htoken)])

/-- An argument is read as one behind an opening parenthesis or a comma. -/
theorem Argument.laidOut {argument : Argument} (h : argument.Kept) {word : Word}
    (hvalue : LaidOut (recognizeWith replacement) Before.Operand argument.value.layout.toList
      (argument.value.words .layout)) (hwords : argument.value.words .layout = word :: words)
    (hstart : startsArgument word.1) :
    LaidOut (recognizeWith replacement) Before.Operand argument.layout.toList
      (argument.words .layout) := by
  cases argument with
  | positional value => exact hvalue
  | named target value span =>
    have hfirst := hvalue
    rw [hwords] at hfirst
    obtain ⟨c, tail, htext, hc⟩ := hfirst.not_sign hstart
    have hsign : LaidOut (recognizeWith replacement) (fun _ => True)
        (['='] ++ value.layout.toList) ((.assign, String.ofList ['=']) :: value.words .layout) := by
      refine hvalue.behind (by decide) (fun before rest _ _ => ?_)
        (Before.operand_of_kind (by decide) _)
      rw [htext]
      exact recognizeWith_assign hc
    rw [Argument.layout, String.toList_append, String.toList_append, List.append_assoc]
    exact (Selector.laidOut h).append ⟨fun _ _ => halts_cons (by decide) _, hsign⟩

/-- Text that is laid out, between parentheses. -/
theorem laidOut_parentheses (h : LaidOut (recognizeWith replacement) Before.Operand text words) :
    LaidOut (recognizeWith replacement) condition ('(' :: (text ++ [')']))
      ((.lParen, "(") :: (words ++ [(.rParen, ")")])) :=
  h.enclosed (by decide) (by decide) (by decide) (Before.operand_of_kind (by decide) _)

/-- Arguments between parentheses, behind the name of a function. -/
theorem laidOut_call {function : Entity} (h : function.Kept)
    (harguments : LaidOut (recognizeWith replacement) Before.Operand text words) :
    LaidOut (recognizeWith replacement) condition (function.text.toList ++ '(' :: (text ++ [')']))
      (function.words ++ (.lParen, "(") :: (words ++ [(.rParen, ")")])) := by
  have hopen : LaidOut (recognizeWith replacement) (fun _ => True) ('(' :: (text ++ [')']))
      ((.lParen, "(") :: (words ++ [(.rParen, ")")])) := laidOut_parentheses harguments
  intro depth before rest _ hrest
  have hpath : ∃ mid, Runs (recognizeWith replacement) ⟨depth, before⟩
      (function.text.toList ++ '(' :: (text ++ [')'] ++ rest)) _ ⟨depth, mid⟩
      ('(' :: (text ++ [')'] ++ rest)) := runs_path h ⟨depth, before⟩ _
  obtain ⟨mid, hname⟩ := hpath
  obtain ⟨last, hruns⟩ := hopen depth mid rest trivial hrest
  refine ⟨last, ?_⟩
  rw [List.append_assoc, List.cons_append]
  rw [List.map_map] at hname
  exact hname.append hruns

/-- A member behind its receiver. -/
theorem goesBehind_member {name : Identifier} (h : IsName name.name) (mark : Option OptionalMark) :
    GoesBehind (recognizeWith replacement) (Layout.member name.name mark).toList
      (name.memberWords mark) := by
  have hname : LaidOut (recognizeWith replacement) (fun _ => True) _ _ := laidOut_name h
  obtain ⟨c, tail, htext, hc⟩ := h.start
  match mark with
  | none =>
    rw [Layout.member, String.toList_append]
    exact hname.goesBehind_dot htext hc
  | some .behind =>
    rw [Layout.member, String.toList_append, String.toList_append]
    exact (hname.goesBehind_dot htext hc).append (goesBehind_optional true)
  | some .ahead =>
    rw [Layout.member, String.toList_append]
    refine ⟨fun rest _ => ⟨?_, ?_⟩, ?_⟩
    · rintro _ ⟨⟩
      decide
    · rintro _ ⟨⟩ _ ⟨⟩
      decide
    · have hbehind : LaidOut (recognizeWith replacement) (fun _ => True)
          (['.', '?'] ++ name.name.toList) ((.dotQuestion, String.ofList ['.', '?']) :: _) :=
        hname.behind (by decide) (fun _ _ _ _ => (recognizeWith_sign (by decide)).mpr rfl) trivial
      exact hbehind

theorem laidOut_spread (h : LaidOut (recognizeWith replacement) Before.Operand text words) :
    LaidOut (recognizeWith replacement) condition ("...".toList ++ text)
      ((.ellipsis, "...") :: words) :=
  h.behind (by decide) (fun _ _ _ _ => (recognizeWith_sign (by decide)).mpr rfl)
    (Before.operand_of_kind (by decide) _)

/-- A token that is read as it is before a space, and an operand behind it. -/
theorem laidOut_spaced {word : String} (hkind : kind ∉ [.eof, .comment, .lBrace, .rBrace])
    (hoperand : kind ∉ .identifier :: Lexeme.statementOpeners)
    (htoken : ∀ before rest, recognizeWith replacement before (word.toList ++ ' ' :: rest) =
      .ok ⟨kind, word.toList.length⟩)
    (h : LaidOut (recognizeWith replacement) Before.Operand text words) (hwords : words ≠ []) :
    LaidOut (recognizeWith replacement) condition (word.toList ++ ' ' :: text)
      ((kind, word) :: words) := by
  have hspace : LaidOut (recognizeWith replacement) Before.Operand (' ' :: text) words :=
    h.space hwords fun _ hbefore => hbefore.space
  have hbehind : LaidOut (recognizeWith replacement) condition (word.toList ++ ' ' :: text)
      ((kind, String.ofList word.toList) :: words) :=
    hspace.behind hkind (fun before rest _ _ => htoken before _) (Before.operand_of_kind hoperand _)
  rwa [String.ofList_toList] at hbehind

theorem recognizeWith_keyword_space {word : String} (h : TokenKind.keyword? word = some kind) :
    recognizeWith replacement before (word.toList ++ ' ' :: rest) =
      .ok ⟨kind, word.toList.length⟩ := by
  rw [recognizeWith_word (isWord_of_keyword? h) (behindWord_cons rest (by decide)),
    String.ofList_toList, h]
  rfl

/-- A word of a binary operator is read as it is before a space. -/
theorem recognizeWith_binary_space {op : BinaryOp} {word : Word} (h : word ∈ op.words) :
    recognizeWith replacement before (word.2.toList ++ ' ' :: rest) =
      .ok ⟨word.1, word.2.toList.length⟩ := by
  cases op with
  | orElse | onlyIf | or | and | isIn =>
    obtain rfl := List.mem_singleton.mp h
    exact recognizeWith_keyword_space rfl
  | isNotIn =>
    simp only [BinaryOp.words, List.mem_cons, List.not_mem_nil, or_false] at h
    obtain rfl | rfl := h <;> exact recognizeWith_keyword_space rfl
  | add | sub =>
    obtain rfl := List.mem_singleton.mp h
    exact recognizeWith_mark (by decide)
  | div =>
    obtain rfl := List.mem_singleton.mp h
    exact recognizeWith_open ⟨by decide, by decide, by simp⟩
  | _ =>
    obtain rfl := List.mem_singleton.mp h
    exact (recognizeWith_sign (by decide)).mpr rfl

/-- A binary operator and its right operand. -/
theorem laidOut_binary (op : BinaryOp)
    (h : LaidOut (recognizeWith replacement) Before.Operand text words) (hwords : words ≠ []) :
    LaidOut (recognizeWith replacement) condition (op.text.toList ++ ' ' :: text)
      (op.words ++ words) := by
  have hspaced : ∀ {kind : TokenKind} {word : String} {condition : Before → Prop},
      (kind, word) ∈ op.words → LaidOut (recognizeWith replacement) condition
        (word.toList ++ ' ' :: text) ((kind, word) :: words) := by
    intro kind word condition hmem
    have hkinds : ∀ entry ∈ op.words, entry.1 ∉ [.eof, .comment, .lBrace, .rBrace] ∧
        entry.1 ∉ .identifier :: Lexeme.statementOpeners := by
      cases op <;> decide
    exact laidOut_spaced (hkinds _ hmem).1 (hkinds _ hmem).2
      (fun _ _ => recognizeWith_binary_space hmem) h hwords
  cases op with
  | isNotIn =>
    have hin : LaidOut (recognizeWith replacement) Before.Operand ("in".toList ++ ' ' :: text)
        ((.kwIn, "in") :: words) := hspaced (by decide)
    have hnot : LaidOut (recognizeWith replacement) condition
        ("not".toList ++ ' ' :: ("in".toList ++ ' ' :: text))
        ((.kwNot, "not") :: (.kwIn, "in") :: words) :=
      laidOut_spaced (by decide) (by decide) (fun _ _ => recognizeWith_keyword_space rfl) hin
        (by simp)
    exact hnot
  | _ => exact hspaced (by decide)

/-- A prefix operator and its operand. -/
theorem laidOut_unary (op : UnaryOp)
    (h : LaidOut (recognizeWith replacement) Before.Operand text words) (hwords : words ≠ []) :
    LaidOut (recognizeWith replacement) condition (op.text.toList ++ text) (op.word :: words) := by
  cases op with
  | not =>
    have hnot : LaidOut (recognizeWith replacement) condition ("not".toList ++ ' ' :: text)
        ((.kwNot, "not") :: words) :=
      laidOut_spaced (by decide) (by decide) (fun _ _ => recognizeWith_keyword_space rfl) h hwords
    exact hnot
  | move =>
    have hmove : LaidOut (recognizeWith replacement) condition ("move".toList ++ ' ' :: text)
        ((.kwMove, "move") :: words) :=
      laidOut_spaced (by decide) (by decide) (fun _ _ => recognizeWith_keyword_space rfl) h hwords
    exact hmove
  | plus | neg => exact h.mark (by decide) (by decide) (Before.operand_of_kind (by decide) _)

/-- The body of a lambda, behind its parameter. -/
theorem goesBehind_arrow (h : LaidOut (recognizeWith replacement) Before.Operand text words)
    (hwords : words ≠ []) :
    GoesBehind (recognizeWith replacement) (" => ".toList ++ text)
      ((.fatArrow, "=>") :: words) := by
  have harrow : LaidOut (recognizeWith replacement) (fun _ => True) ("=>".toList ++ ' ' :: text)
      ((.fatArrow, "=>") :: words) :=
    laidOut_spaced (by decide) (by decide) (fun _ _ => (recognizeWith_sign (by decide)).mpr rfl) h
      hwords
  exact harrow.goesBehind_space (by simp) fun _ => trivial

/-- An index, behind its receiver. -/
theorem goesBehind_index (h : LaidOut (recognizeWith replacement) Before.Operand text words)
    (optional : Bool) :
    GoesBehind (recognizeWith replacement)
      ('[' :: (text ++ ']' :: (if optional then "?" else "").toList))
      ((.lBracket, "[") :: (words ++ (.rBracket, "]") ::
        if optional then [(.question, "?")] else [])) := by
  have hmark : GoesBehind (recognizeWith replacement) _ _ := goesBehind_optional optional
  have hclose : GoesBehind (recognizeWith replacement)
      (']' :: (if optional then "?" else "").toList)
      ((.rBracket, "]") :: if optional then [(.question, "?")] else []) :=
    hmark.laidOut.goesBehind_mark (by decide) (by decide) (by decide) trivial
  exact (h.append hclose).goesBehind_mark (by decide) (by decide) (by decide)
    (Before.operand_of_kind (by decide) _)

/-- The value of a field of a record, behind its key. -/
theorem laidOut_field {key : RecordKey} (hkey : key.Kept)
    (h : LaidOut (recognizeWith replacement) Before.Operand text words) (hwords : words ≠ []) :
    LaidOut (recognizeWith replacement) condition (key.text.toList ++ (": ".toList ++ text))
      (key.word :: (.colon, ":") :: words) := by
  have hcolon : LaidOut (recognizeWith replacement) (fun _ => True) (":".toList ++ ' ' :: text)
      ((.colon, ":") :: words) :=
    laidOut_spaced (by decide) (by decide) (fun before rest => by
      rw [show ":".toList ++ ' ' :: rest = ':' :: ' ' :: rest from rfl,
        recognizeWith_open ⟨by decide, by decide, fun h => absurd h (by decide)⟩]
      rfl) h hwords
  cases key with
  | identifier name =>
    have hword : LaidOut (recognizeWith replacement) condition
        (name.name.toList ++ (": ".toList ++ text))
        ((.identifier, String.ofList name.name.toList) :: (.colon, ":") :: words) := by
      refine hcolon.behind (by decide) (fun before rest _ _ => ?_) trivial
      refine recognizeWith_name hkey ⟨?_, ?_, ?_⟩
      · rintro _ ⟨⟩
        decide
      · rintro _ ⟨⟩
        decide
      · rintro c tail heq
        obtain rfl := (List.cons.inj (List.cons.inj heq).2).1
        decide
    rwa [String.ofList_toList] at hword
  | string value =>
    have hword : LaidOut (recognizeWith replacement) condition
        (value.text.toList ++ (": ".toList ++ text))
        ((.string, String.ofList value.text.toList) :: (.colon, ":") :: words) :=
      hcolon.behind (by decide) (fun before rest _ _ => hkey.2 _ _ _) trivial
    rwa [String.ofList_toList] at hword

/-! ### Format strings -/

/-- What is laid out between the braces of a replacement is read as words, and no more than a
space is left. -/
theorem runs_inside (h : LaidOut (recognizeWith replacement) Before.Operand text words)
    (hwords : words ≠ []) (hbefore : before.Operand) (hrest : Halts rest) :
    ∃ last behind, Runs (recognizeWith replacement) ⟨0, before⟩ (Layout.inside text ++ rest) words
      ⟨0, last⟩ behind ∧ (behind = rest ∨ behind = ' ' :: rest) := by
  rw [Layout.inside]
  split
  · have hspace : LaidOut (recognizeWith replacement) Before.Operand (' ' :: text) words :=
      h.space hwords fun _ hbefore => hbefore.space
    obtain ⟨last, hruns⟩ := hspace 0 before (' ' :: rest) hbefore (halts_cons (by decide) rest)
    exact ⟨last, ' ' :: rest, by simpa using hruns, .inr rfl⟩
  · obtain ⟨last, hruns⟩ := h 0 before rest hbefore hrest
    exact ⟨last, rest, hruns, .inl rfl⟩

/-- A replacement that is laid out ends where its closing brace is. -/
theorem read_inside (h : LaidOut (recognizeWith replacement) Before.Operand text words)
    (hwords : words ≠ []) (rest : List Char) :
    Replacement.read (recognizeWith replacement)
        ('\x7b' :: (Layout.inside text ++ '\x7d' :: rest)) =
      .ok ⟨(Layout.inside text).length + 1⟩ := by
  have hoperand : Before.Operand ⟨some .lParen, some '\x7b'⟩ := Before.operand_of_kind (by decide) _
  have hhalts : Halts ('\x7d' :: rest) := halts_cons (by decide) rest
  obtain ⟨last, behind, hruns, hbehind⟩ := runs_inside h hwords hoperand hhalts
  have hgap : behind.drop (Gap.length behind) = '\x7d' :: rest := by
    obtain rfl | rfl := hbehind <;> rfl
  have hsource : ('\x7b' :: (Layout.inside text ++ '\x7d' :: rest)).drop 1 =
      Layout.inside text ++ '\x7d' :: rest := rfl
  obtain ⟨seen, innerStop, hsees, hstop⟩ := hruns.sees rfl
    (by rw [hgap]; exact recognizeWith_mark (by decide)) hsource
  have hprogress := Replacement.progresses_recognizeWith replacement
  have hlt := hsees.lt hprogress
  have hlength := congrArg List.length hstop
  rw [hgap, List.length_drop] at hlength
  simp only [List.length_cons, List.length_append] at hlength hlt
  rw [Replacement.read_of_sees hprogress hsees,
    show innerStop = (Layout.inside text).length + 1 by omega]

/-- Tokens with no comment among them are all read. -/
theorem TokenStream.rest_ofTokens {tokens : List Token} {stop : Token} (hstop : stop.kind = .eof)
    (h : ∀ token ∈ tokens, token.kind ∉ [.eof, .comment]) :
    (ofTokens (tokens ++ [stop])).rest = tokens := by
  rw [ofTokens_concat hstop fun token hmem heof => h token hmem (by simp [heof])]
  refine List.filter_eq_self.mpr fun token hmem => ?_
  have hkind := h token hmem
  simp only [List.mem_cons, List.not_mem_nil, or_false, not_or] at hkind
  simp [TokenKind.isTrivia, hkind.2]

/-- What is laid out between the braces of a replacement is scanned as words. -/
theorem tokens_inside (h : LaidOut recognize Before.Operand text words) (hwords : words ≠ [])
    (span : Span) : ∃ tokens, (Scanner.within (Layout.inside text) span).tokens? = .ok tokens ∧
      (TokenStream.ofTokens tokens).rest.map Token.word = words := by
  have hoperand : Before.Operand ⟨some .lParen, none⟩ := Before.operand_of_kind (by decide) _
  have hhalts : Halts [] := ⟨by simp, by simp⟩
  obtain ⟨last, behind, hruns, hbehind⟩ := runs_inside h hwords hoperand hhalts
  rw [List.append_nil] at hruns
  have hend : behind.drop (Gap.length behind) = [] := by
    obtain rfl | rfl := hbehind <;> rfl
  have hreads : ∃ tokens stop, (Scanner.within (Layout.inside text) span).Reads (tokens ++ [stop]) ∧
      stop.kind = .eof ∧ tokens.map Token.word = words ∧
      ∀ token ∈ tokens, token.kind ∉ [.eof, .comment] := hruns.reads hend rfl rfl rfl
  obtain ⟨tokens, stop, hreads, hstop, htokens, hkinds⟩ := hreads
  refine ⟨_, Scanner.tokens?_of_reads rfl hreads, ?_⟩
  rw [TokenStream.rest_ofTokens hstop hkinds]
  exact htokens

/-- A format string is read as one wherever it stands. -/
theorem laidOut_format {segments : List Segment} {levels : Nat}
    (hkept : ∀ segment ∈ segments, segment.Kept) (hapart : segments.IsChain Segment.Apart)
    (hfound : ∀ segment ∈ segments, FormatBody.IsFound (Lexeme.replacement levels) segment) :
    LaidOut (recognizeWith (Lexeme.replacement levels)) condition (Layout.format segments)
      [(.formatString, String.ofList (Layout.format segments))] := by
  refine laidOut_word (by decide) fun before rest _ _ => ?_
  have hread : FormatBody.read (Lexeme.replacement levels) before (Layout.format segments ++ []) =
      .ok ⟨Segment.parts 2 segments, (Layout.format segments).length⟩ := by
    rw [List.append_nil]
    exact FormatBody.read_layouts hkept hapart hfound before
  have hwithin : FormatBody.read (Lexeme.replacement levels) before
      (Layout.format segments ++ rest) = _ :=
    FormatBody.read_within (agrees_replacement (Nat.le_refl levels)) hread (Nat.le_refl _)
  have hopen : ∀ tail, recognizeWith (Lexeme.replacement levels) before ('f' :: '\x22' :: tail) =
      (FormatBody.read (Lexeme.replacement levels) before ('f' :: '\x22' :: tail)).map
        fun body => ⟨.formatString, body.length⟩ := by
    intro tail
    rw [recognizeWith_open ⟨by decide, by decide, fun h => absurd h (by decide)⟩]
    rfl
  rw [Layout.format, List.cons_append, List.cons_append] at hwithin ⊢
  rw [hopen, hwithin]
  rfl

/-- Replacements whose expressions are laid out are found, one level further up. -/
theorem found_of_laidOut {segments : List Segment} {levels : Nat}
    (h : ∀ value ∈ segments.filterMap (·.value?), ∃ below, levels = below + 1 ∧
      LaidOut (recognizeWith (Lexeme.replacement below)) Before.Operand value.layout.toList
        (value.words .layout) ∧ value.words .layout ≠ []) :
    ∀ segment ∈ segments, FormatBody.IsFound (Lexeme.replacement levels) segment := by
  intro segment hmem
  cases segment with
  | text => trivial
  | replacement value span =>
    obtain ⟨below, rfl, hlaid, hwords⟩ := h value (List.mem_filterMap.mpr ⟨_, hmem, rfl⟩)
    exact fun previous rest => read_inside hlaid hwords rest

/-- Replacements whose expressions are laid out are scanned as the words of these. -/
theorem worded_of_laidOut {segments : List Segment}
    (h : ∀ value ∈ segments.filterMap (·.value?),
      LaidOut recognize Before.Operand value.layout.toList (value.words .layout) ∧
        value.words .layout ≠ []) :
    ∀ segment ∈ segments, segment.IsWorded := by
  intro segment hmem
  cases segment with
  | text => trivial
  | replacement value span =>
    obtain ⟨hlaid, hwords⟩ := h value (List.mem_filterMap.mpr ⟨_, hmem, rfl⟩)
    exact tokens_inside hlaid hwords

/-! ### Items -/

theorem ListItem.layouts_eq_map (items : List ListItem) : layouts items = items.map (·.layout) := by
  induction items with
  | nil => rfl
  | cons item rest ih => rw [layouts, ih, List.map_cons]

theorem RecordItem.layouts_eq_map (items : List RecordItem) :
    layouts items = items.map (·.layout) := by
  induction items with
  | nil => rfl
  | cons item rest ih => rw [layouts, ih, List.map_cons]

theorem Argument.layouts_eq_map (arguments : List Argument) :
    layouts arguments = arguments.map (·.layout) := by
  induction arguments with
  | nil => rfl
  | cons argument rest ih => rw [layouts, ih, List.map_cons]

/-- Items with commas between them. -/
theorem laidOut_items {α : Type} {items : List α} {layout : α → String} {words : α → List Word}
    (hcondition : ∀ before : Before, before.previous = some .comma → condition before)
    (h : ∀ item ∈ items,
      LaidOut (recognizeWith replacement) condition (layout item).toList (words item) ∧
        words item ≠ []) :
    LaidOut (recognizeWith replacement) condition (Layout.commas (items.map layout)).toList
      (List.intercalate [(.comma, ",")] (items.map words)) := by
  refine laidOut_commas ?_ hcondition
  rwa [List.forall₂_map_left_iff, List.forall₂_map_right_iff, List.forall₂_same]

theorem Before.operand_of_comma (h : before.previous = some .comma) : before.Operand := by
  obtain ⟨previous, last⟩ := before
  obtain rfl : previous = some .comma := h
  exact Before.operand_of_kind (by decide) last

/-! ### Expressions -/

namespace Expr

theorem words_ne_nil {value : Expr} (h : value.All Named) : value.words .layout ≠ [] := by
  obtain ⟨word, words, hwords, -⟩ := words_cons .layout h
  simp [hwords]

theorem laidOut_listItems {items : List ListItem}
    (hvalues : ∀ value ∈ items.map (·.value),
      LaidOut (recognizeWith replacement) Before.Operand value.layout.toList
        (value.words .layout) ∧ value.All Named) :
    LaidOut (recognizeWith replacement) Before.Operand (Layout.commas (items.map (·.layout))).toList
      (List.intercalate Style.layout.comma (items.map (·.words .layout))) := by
  refine laidOut_items (fun _ => Before.operand_of_comma) fun item hmem => ?_
  obtain ⟨hvalue, hnamed⟩ := hvalues item.value (List.mem_map_of_mem hmem)
  cases item with
  | item value => exact ⟨hvalue, words_ne_nil hnamed⟩
  | spread value span =>
    rw [ListItem.layout, String.toList_append]
    exact ⟨laidOut_spread hvalue, by simp [ListItem.words]⟩

theorem laidOut_recordItems {items : List RecordItem} (h : ∀ item ∈ items, item.Kept)
    (hvalues : ∀ value ∈ items.map (·.value),
      LaidOut (recognizeWith replacement) Before.Operand value.layout.toList
        (value.words .layout) ∧ value.All Named) :
    LaidOut (recognizeWith replacement) (fun _ => True)
      (Layout.commas (items.map (·.layout))).toList
      (List.intercalate Style.layout.comma (items.map (·.words .layout))) := by
  refine laidOut_items (fun _ _ => trivial) fun item hmem => ?_
  obtain ⟨hvalue, hnamed⟩ := hvalues item.value (List.mem_map_of_mem hmem)
  have hkept := h item hmem
  cases item with
  | field key value span =>
    rw [RecordItem.layout, String.toList_append, String.toList_append, List.append_assoc]
    exact ⟨laidOut_field hkept hvalue (words_ne_nil hnamed), by simp [RecordItem.words]⟩
  | spread value span =>
    rw [RecordItem.layout, String.toList_append]
    exact ⟨laidOut_spread hvalue, by simp [RecordItem.words]⟩

theorem laidOut_arguments {arguments : List Argument} (h : ∀ argument ∈ arguments, argument.Kept)
    (hvalues : ∀ value ∈ arguments.map (·.value),
      LaidOut (recognizeWith replacement) Before.Operand value.layout.toList
        (value.words .layout) ∧ value.All Named) :
    LaidOut (recognizeWith replacement) Before.Operand
      (Layout.commas (arguments.map (·.layout))).toList
      (List.intercalate Style.layout.comma (arguments.map (·.words .layout))) := by
  refine laidOut_items (fun _ => Before.operand_of_comma) fun argument hmem => ?_
  obtain ⟨hvalue, hnamed⟩ := hvalues argument.value (List.mem_map_of_mem hmem)
  obtain ⟨word, words, hwords, hstart⟩ := words_cons .layout hnamed
  refine ⟨argument.laidOut (h argument hmem) hvalue hwords hstart, ?_⟩
  cases argument with
  | named => simp [Argument.words]
  | positional => exact words_ne_nil hnamed

section

variable {span : Span}

theorem laidOut_literal {value : Literal} (h : Word.Recurs (value.tokenKind, value.text)) :
    LaidOut (recognizeWith replacement) Before.Operand value.text.toList
      [(value.tokenKind, value.text)] := by
  have hkind : value.tokenKind ∉ [.eof, .comment, .lBrace, .rBrace] := by
    cases value with
    | bool value => cases value <;> decide
    | _ => simp [Literal.tokenKind]
  have hword : LaidOut (recognizeWith replacement) Before.Operand
      value.text.toList [(value.tokenKind, String.ofList value.text.toList)] :=
    laidOut_word hkind fun before rest hbefore hrest => h _ before rest hbefore hrest
  rwa [String.ofList_toList] at hword

/-- A format string is read as one where its replacements are found. -/
theorem laidOut_segments {segments : List Segment} {levels : Nat}
    (hkept : ∀ segment ∈ segments, segment.Kept) (hapart : segments.IsChain Segment.Apart)
    (hfound : ∀ segment ∈ segments, FormatBody.IsFound (Lexeme.replacement levels) segment) :
    LaidOut (recognizeWith (Lexeme.replacement levels)) Before.Operand
      (layout (.format segments span)).toList (Expr.words .layout (.format segments span)) := by
  have hword : LaidOut (recognizeWith (Lexeme.replacement levels)) Before.Operand _ _ :=
    laidOut_format hkept hapart hfound
  have htext : (layout (.format segments span)).toList = Layout.format segments := by
    simp [layout, Layout.format]
  have hwords : Expr.words .layout (.format segments span) =
      [(.formatString, String.ofList (Layout.format segments))] := by
    rw [← htext, String.ofList_toList]
    rfl
  rwa [htext, hwords]

theorem laidOut_list {items : List ListItem}
    (hvalues : ∀ value ∈ items.map (·.value),
      LaidOut (recognizeWith replacement) Before.Operand value.layout.toList
        (value.words .layout) ∧ value.All Named) :
    LaidOut (recognizeWith replacement) Before.Operand (layout (.list items span)).toList
      (Expr.words .layout (.list items span)) := by
  have hitems : LaidOut (recognizeWith replacement) Before.Operand
      ('[' :: (_ ++ [']'])) ((.lBracket, "[") :: (_ ++ [(.rBracket, "]")])) :=
    (laidOut_listItems hvalues).enclosed (by decide) (by decide) (by decide)
      (Before.operand_of_kind (by decide) _)
  rw [Expr.words, ListItem.allWords_eq_map]
  simpa [layout, ListItem.layouts_eq_map] using hitems

/-- A binary operator between its operands, with spaces. -/
theorem laidOut_operands {op : BinaryOp} {left right : Expr}
    (hleft : LaidOut (recognizeWith replacement) Before.Operand left.layout.toList
      (left.words .layout))
    (hright : LaidOut (recognizeWith replacement) Before.Operand right.layout.toList
      (right.words .layout)) (hwords : right.words .layout ≠ []) :
    LaidOut (recognizeWith replacement) Before.Operand
      (layout (.binary op left right span)).toList
      (Expr.words .layout (.binary op left right span)) := by
  have hop : LaidOut (recognizeWith replacement) (fun _ => True)
      (op.text.toList ++ ' ' :: right.layout.toList) (op.words ++ right.words .layout) :=
    laidOut_binary op hright hwords
  have hbehind := hop.goesBehind_space (by simp [hwords]) fun _ => trivial
  rw [Expr.words, List.append_assoc]
  simpa [layout] using hleft.append hbehind

theorem laidOut_methodCall {receiver : Expr} {function : Entity} {arguments : List Argument}
    (hreceiver : LaidOut (recognizeWith replacement) Before.Operand receiver.layout.toList
      (receiver.words .layout))
    (hfunction : function.Kept) (harguments : ∀ argument ∈ arguments, argument.Kept)
    (hvalues : ∀ value ∈ arguments.map (·.value),
      LaidOut (recognizeWith replacement) Before.Operand value.layout.toList
        (value.words .layout) ∧ value.All Named) :
    LaidOut (recognizeWith replacement) Before.Operand
      (layout (.methodCall receiver function arguments span)).toList
      (Expr.words .layout (.methodCall receiver function arguments span)) := by
  obtain ⟨c, tail, htext, hc⟩ := IsPath.start hfunction
  have hcall := (laidOut_call hfunction (laidOut_arguments harguments hvalues)).goesBehind_dot
    (by rw [Entity.text, htext]; rfl) hc
  rw [Expr.words, Argument.allWords_eq_map]
  simpa [layout, Argument.layouts_eq_map] using hreceiver.append hcall

end

/-- An expression that is laid out is read as its words, where an operand may stand. -/
theorem laidOut {value : Expr} {levels levels' : Nat} (h : value.All (KeptTo levels))
    (hle : levels ≤ levels') :
    LaidOut (recognizeWith (Lexeme.replacement levels')) Before.Operand value.layout.toList
      (value.words .layout) := by
  induction value using Expr.induction generalizing levels levels' with
  | step value ih =>
    have hhere := h.here.kept
    have hchild : ∀ child ∈ value.children,
        LaidOut (recognizeWith (Lexeme.replacement levels')) Before.Operand child.layout.toList
          (child.words .layout) ∧ child.All Named :=
      fun child hmem => ⟨ih child hmem (h.child hmem) hle,
        (h.child hmem).mono fun value hvalue => hvalue.kept.named⟩
    cases value with
    | literal value span => exact laidOut_literal hhere.2
    | format segments span =>
      obtain ⟨hkept, hapart, hinner⟩ := hhere
      -- The replacements are read one level further down.
      refine laidOut_segments hkept hapart (found_of_laidOut fun inner hmem => ?_)
      obtain ⟨below, rfl, hall⟩ := hinner inner hmem
      obtain ⟨below', rfl⟩ := Nat.exists_eq_add_one_of_ne_zero (Nat.ne_zero_of_lt hle)
      exact ⟨below', rfl, ih inner hmem hall (Nat.le_of_succ_le_succ hle),
        words_ne_nil (hchild inner hmem).2⟩
    | identifier name span => exact laidOut_name hhere.1
    | «variable» name span =>
      rw [layout, String.toList_append]
      exact laidOut_variable hhere
    | metadata selector span => exact laidOut_metadata hhere
    | this span => exact laidOut_this
    | placeholder span => exact laidOut_name isName_placeholder
    | list items span => exact laidOut_list hchild
    | record items span =>
      rw [words, RecordItem.allWords_eq_map]
      simpa [layout, RecordItem.layouts_eq_map] using
        laidOut_braces (laidOut_recordItems hhere hchild)
    | paren inner span =>
      rw [words]
      simpa [layout] using laidOut_parentheses (hchild inner (by simp [children])).1
    | binary op left right span =>
      have hright := hchild right (by simp [children])
      exact laidOut_operands (hchild left (by simp [children])).1 hright.1 (words_ne_nil hright.2)
    | unary op operand span =>
      have hoperand := hchild operand (by simp [children])
      rw [layout, String.toList_append]
      exact laidOut_unary op hoperand.1 (words_ne_nil hoperand.2)
    | member receiver name mark span =>
      rw [layout, String.toList_append]
      exact (hchild receiver (by simp [children])).1.append (goesBehind_member hhere mark)
    | index receiver key optional span =>
      have hindex := (hchild receiver (by simp [children])).1.append
        (goesBehind_index (hchild key (by simp [children])).1 optional)
      rw [words]
      simpa [layout] using hindex
    | call function arguments span =>
      rw [words, Argument.allWords_eq_map]
      simpa [layout, Argument.layouts_eq_map] using
        laidOut_call hhere.1 (laidOut_arguments hhere.2 hchild)
    | methodCall receiver function arguments span =>
      exact laidOut_methodCall (hchild receiver (by simp [children])).1 hhere.1 hhere.2
        fun child hmem => hchild child (List.mem_cons_of_mem _ hmem)
    | lambda parameter body span =>
      have hbody := hchild body (by simp [children])
      have hlambda : LaidOut (recognizeWith (Lexeme.replacement levels')) Before.Operand _ _ :=
        (laidOut_name hhere).append (goesBehind_arrow hbody.1 (words_ne_nil hbody.2))
      rw [words]
      simpa [layout, Identifier.word] using hlambda

/-- The words of an expression are read as the expression. -/
theorem legible_of_keptTo {value : Expr} {levels : Nat} (h : value.All (KeptTo levels))
    (hle : levels ≤ mostLevels) : value.All Legible := by
  induction value using Expr.induction with
  | step value ih =>
    refine .intro ?_ fun child hmem => ih child hmem (h.child hmem)
    have hhere := h.here.kept
    cases value with
    | literal value span => exact hhere.1
    | format segments span =>
      obtain ⟨hkept, hapart, hinner⟩ := hhere
      have hwords : ∀ inner ∈ segments.filterMap (·.value?), inner.words .layout ≠ [] :=
        fun inner hmem => words_ne_nil
          ((h.child hmem).mono fun value hvalue => hvalue.kept.named)
      refine formatLegible_of_found hkept hapart (found_of_laidOut fun inner hmem => ?_)
        (worded_of_laidOut fun inner hmem => ⟨laidOut (h.child hmem) hle, hwords inner hmem⟩)
      obtain ⟨below, rfl, hall⟩ := hinner inner hmem
      exact ⟨_, rfl, laidOut hall (Nat.le_of_succ_le_succ hle), hwords inner hmem⟩
    | identifier name span => exact hhere.2
    | record items span => exact fun item hmem => (hhere item hmem).legible
    | call function arguments span | methodCall receiver function arguments span =>
      exact ⟨hhere.1.segments_ne_nil, fun argument hmem => (hhere.2 argument hmem).legible⟩
    | _ => trivial

end Expr

end PipelineLang
