import PipelineLang.Grammar.Expression
import PipelineLang.Proofs.Address.Longest
import PipelineLang.Proofs.Literal.Decoding

/-!
# The addresses in literals

A scanner recognises an address by its shape, and the address is read from its text by rules
of its own. The two agree on what is an address, but for the octets that are refused.

## Main definitions

- `Address.IsDenoted` — the address that a text denotes, if there is one

## Main results

- `Address.isDenoted_take` — the address that is read from what is taken as one
- `Scanner.reads_addresses` — each address that a scanner reads is the one that its text denotes

## Design notes

A text may be spelled as an address in no more than one way that matters. So what is said of its
address is said of each spelling of the text, and that there is a spelling is said beside it.
-/

namespace PipelineLang

open Matcher Lexeme

namespace Address

/-- A text spells an address, and `address` is what it denotes: none if one of its octets is
refused, and the address that is spelled if not. -/
structure IsDenoted (text : List Char) (address : Option Address) : Prop where
  exists_spelling : ∃ spelling : Spelling, spelling.text = text
  eq_none_iff : ∀ spelling : Spelling, spelling.text = text →
    (address = none ↔ ∃ octet ∈ spelling.octets, octet.IsRefused)
  eq_some : ∀ spelling : Spelling, spelling.text = text →
    (¬ ∃ octet ∈ spelling.octets, octet.IsRefused) → address = some spelling.address

theorem Spelling.isDenoted (spelling : Spelling) :
    IsDenoted spelling.text (ofText? spelling.text) where
  exists_spelling := ⟨spelling, rfl⟩
  eq_none_iff other hother := hother ▸ ofText?_eq_none_iff other
  eq_some _ hother hrefused := hother ▸ ofText?_text hrefused

/-- The address that is read from what is taken as one is the one that it denotes. -/
theorem isDenoted_take {text : List Char} {n : Nat}
    (h : quadMatcher text = some n ∨ groupsMatcher text = some n) :
    IsDenoted (text.take n) (ofText? (text.take n)) := by
  obtain ⟨spelling, htext⟩ := exists_spelling_take h
  exact htext ▸ spelling.isDenoted

end Address

namespace Scanner

/-- Each token from a scanner on is read by a scanner. -/
theorem exists_read_of_mem {scanner : Scanner} {token : Token} (h : token ∈ scanner.tokens.1) :
    ∃ mid behind : Scanner, mid.read = (.ok token, behind) := by
  have hall : ∀ (fuel : Nat) (scanner : Scanner), token ∈ (tokensUpTo fuel scanner).1 →
      ∃ mid behind : Scanner, mid.read = (.ok token, behind) := by
    intro fuel
    induction fuel with
    | zero => simp [tokensUpTo]
    | succ fuel ih =>
      intro scanner hmem
      rw [tokensUpTo, next?] at hmem
      cases hfinished : scanner.finished with
      | true => simp [hfinished] at hmem
      | false =>
        rw [hfinished, if_neg Bool.false_ne_true] at hmem
        cases hread : scanner.read with
        | mk found behind =>
          rw [hread] at hmem
          cases found with
          | error error => simp at hmem
          | ok first =>
            obtain rfl | hmem := List.mem_cons.mp hmem
            · exact ⟨scanner, behind, hread⟩
            · exact ih _ hmem
  exact hall _ scanner h

/-- An address or a subnet is recognised where it is read. -/
theorem exists_recognized_of_mem {scanner : Scanner} {token : Token} (h : token ∈ scanner.tokens.1)
    (hkind : token.kind ∈ [.subnet, .ip]) :
    ∃ (rest : List Char) (lexeme : Lexeme), lexeme.IsAddress rest ∧
      token.kind = lexeme.kind ∧ token.text = String.ofList (rest.take lexeme.length) := by
  obtain ⟨mid, behind, hread⟩ := exists_read_of_mem h
  cases readAs_of_read hread with
  | frontmatterEnd | frontmatterClose | frontmatterBody | frontmatterOpen | eof =>
    exact absurd hkind (by simp [tokenOf])
  | lexeme _ _ hlexeme _ =>
    exact ⟨_, _, isAddress_of_recognized (recognized_of_ok hlexeme) hkind, rfl, rfl⟩

end Scanner

/-- A literal that a token spells is read from it. -/
theorem Grammar.run_literal {token : Token} {value : Literal} {stream : TokenStream}
    (h : Literal.ofText? token.kind token.text = some value) (hpeek : stream.peek = token) :
    literal.run stream = .ok (.literal value token.span) stream.pass := by
  subst hpeek
  have hread : (Parse.peek : Parse Token).run stream = .ok stream.peek stream := rfl
  rw [literal, EStateM.run_bind, hread]
  dsimp only
  rw [h]
  rfl

/-- The address of each literal is what its text denotes. A token that a scanner reads as an
address is read as a literal with the address that its text denotes; and one that it reads as a
subnet, as a literal with the address that is denoted by what stands before its slash. -/
theorem Scanner.reads_addresses (scanner : Scanner) (token : Token)
    (h : token ∈ scanner.tokens.1) :
    (token.kind = .ip → ∃ address, Address.IsDenoted token.text.toList address ∧
      ∀ stream : TokenStream, stream.peek = token →
        Grammar.literal.run stream =
          .ok (.literal (.ip ⟨token.text, address⟩) token.span) stream.pass) ∧
    (token.kind = .subnet → ∃ written digits address,
      token.text.toList = written ++ '/' :: digits ∧ (∀ c ∈ digits, c.isDigit) ∧
      Address.IsDenoted written address ∧ ∀ stream : TokenStream, stream.peek = token →
        Grammar.literal.run stream =
          .ok (.literal (.subnet ⟨token.text, address, Ascii.number 10 digits⟩) token.span)
            stream.pass) := by
  constructor
  · intro hkind
    obtain ⟨rest, lexeme, hlexeme, hsame, htext⟩ := exists_recognized_of_mem h (by simp [hkind])
    obtain ⟨hsubnet, -⟩ | ⟨-, hmatch⟩ := hlexeme
    · simp [← hsame, hkind] at hsubnet
    refine ⟨_, ?_, fun stream => Grammar.run_literal (by rw [hkind]; rfl)⟩
    rw [htext, String.toList_ofList]
    exact Address.isDenoted_take hmatch
  · intro hkind
    obtain ⟨rest, lexeme, hlexeme, hsame, htext⟩ := exists_recognized_of_mem h (by simp [hkind])
    obtain ⟨-, hmatch⟩ | ⟨hip, -⟩ := hlexeme
    swap
    · simp [← hsame, hkind] at hip
    obtain ⟨m, digits, haddress, hparts, hslash, hdigits, hlength⟩ := Subnet.exists_parts hmatch
    refine ⟨rest.take m, digits, _, ?_, List.all_eq_true.mp hdigits,
      Address.isDenoted_take haddress, fun stream => ?_⟩
    · rw [htext, String.toList_ofList, hparts]
    · refine Grammar.run_literal ?_
      rw [hkind, htext, hparts, Literal.ofText?, Subnet.read?_slash hslash hdigits hlength]
      rfl

/-- The subnet of a long address that ends with octets. -/
theorem Scanner.reads_addresses_subnet :
    ∃ written digits address, "::1.2.3.04/9".toList = written ++ '/' :: digits ∧
      (∀ c ∈ digits, c.isDigit) ∧ Address.IsDenoted written address := by
  have htokens : (ofSource "::1.2.3.04/9".toList).tokens.1 =
      [⟨.subnet, "::1.2.3.04/9", ⟨0, 12, 1, 1⟩⟩, ⟨.eof, "", ⟨12, 12, 1, 13⟩⟩] := by
    decide +kernel
  obtain ⟨written, digits, address, htext, hdigits, hdenoted, -⟩ :=
    (reads_addresses (ofSource "::1.2.3.04/9".toList)
      ⟨.subnet, "::1.2.3.04/9", ⟨0, 12, 1, 1⟩⟩ (by rw [htokens]; simp)).2 rfl
  exact ⟨written, digits, address, htext, hdigits, hdenoted⟩

end PipelineLang
