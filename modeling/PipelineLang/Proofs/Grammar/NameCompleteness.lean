import PipelineLang.Proofs.Grammar.Legible
import PipelineLang.Proofs.Grammar.Takes
import PipelineLang.Proofs.Syntax.Unplaced

/-!
# Names are read from their words

## Main results

- `Grammar.exists_series` — the words of trees, with a separator between any two of
  them, are read as a series
- `Grammar.entity_takes`, `Grammar.selector?_takes` — names are read from their words
-/

namespace PipelineLang

open TokenStream Parse Shape

namespace Grammar

/-! ### Series of words -/

/-- The words of some trees with a separator between them are read as a series. -/
theorem exists_series {α β γ : Type} {stop : Token} (item : Parse α) (again : Parse Bool)
    (words : β → List Word) (separator : List Word) (f : α → γ) (g : β → γ)
    (Follow Start : List Token → Prop) (trees : List β) (hne : trees ≠ [])
    (hitem : ∀ tree ∈ trees, ∀ {before taken ahead}, taken.map Token.word = words tree →
      Follow ahead → ∃ a, item.TakesSome stop before taken ahead a ∧ f a = g tree)
    (hstart : ∀ tree ∈ trees, ∀ {taken ahead}, taken.map Token.word = words tree →
      Start (taken ++ ahead))
    (hseparator : ∀ {before gap ahead}, gap.map Token.word = separator → Start ahead →
      again.Takes stop before gap ahead true)
    (hfollow : ∀ {gap ahead}, gap.map Token.word = separator → Follow (gap ++ ahead))
    (before : List Token) {taken : List Token} (ahead : List Token) (hend : Follow ahead)
    (hlast : ∀ before, again.Takes stop before [] ahead false)
    (h : taken.map Token.word = List.intercalate separator (trees.map words)) :
    ∃ items, Series (item.TakesSome stop) (again.Takes stop) before taken ahead items ∧
      items.map f = trees.map g := by
  induction trees generalizing before taken with
  | nil => exact absurd rfl hne
  | cons tree rest ih =>
    cases rest with
    | nil =>
      rw [List.map_cons, List.map_nil, List.intercalate_singleton] at h
      obtain ⟨a, hrun, ha⟩ := hitem tree (by simp) h hend
      refine ⟨[a], ?_, by simp [ha]⟩
      rw [← List.append_nil taken]
      exact .last hrun (hlast _)
    | cons other rest =>
      rw [List.map_cons, List.map_cons, List.intercalate_cons_cons, ← List.map_cons] at h
      obtain ⟨front, others, rfl, hfront, hothers⟩ := List.map_eq_append_iff.mp h
      obtain ⟨first, gap, rfl, hfirst, hgap⟩ := List.map_eq_append_iff.mp hfront
      obtain ⟨a, hrun, ha⟩ := hitem tree (by simp) hfirst (hfollow hgap)
      obtain ⟨items, hseries, hitems⟩ := ih (by simp) (fun t ht => hitem t (by simp [ht]))
        (fun t ht => hstart t (by simp [ht])) _ hothers
      have hnext : Start (others ++ ahead) := by
        cases rest with
        | nil =>
          rw [List.map_cons, List.map_nil, List.intercalate_singleton] at hothers
          exact hstart other (by simp) hothers
        | cons third rest =>
          rw [List.map_cons, List.map_cons, List.intercalate_cons_cons,
            List.append_assoc] at hothers
          obtain ⟨second, back, rfl, hsecond, -⟩ := List.map_eq_append_iff.mp hothers
          rw [List.append_assoc]
          exact hstart other (by simp) hsecond
      exact ⟨a :: items, .more hrun (hseparator hgap hnext) hseries, by simp [ha, hitems]⟩

/-! ### Names -/

theorem kind_of_word {token : Token} {word : Word} (h : token.word = word) :
    token.kind = word.1 := by rw [← h]; rfl

theorem text_of_word {token : Token} {word : Word} (h : token.word = word) :
    token.text = word.2 := by rw [← h]; rfl

theorem unplaced_identifierOf {token : Token} {name : Identifier} (h : token.word = name.word) :
    (identifierOf token).unplaced = name.unplaced := by
  rw [Identifier.unplaced, identifierOf, text_of_word h]
  rfl

section

variable {stop : Token} (hstop : stop.kind = .eof)

include hstop

theorem identifier_takes {before ahead : List Token} {token : Token}
    (h : token.kind = .identifier) :
    identifier.Takes stop before [token] ahead (identifierOf token) :=
  (expect_takes hstop h).bind_pure (takes_pure _)

theorem entity_takes (before : List Token) {taken : List Token} (ahead : List Token)
    {function : Entity} (hne : function.segments ≠ []) (h : taken.map Token.word = function.words)
    (hahead : firstKind ahead ≠ .moduleSep) :
    ∃ function', entity.Takes stop before taken ahead function' ∧
      function'.unplaced = function.unplaced := by
  obtain ⟨names, hseries, hnames⟩ := exists_series identifier (eats .moduleSep)
    (fun name => [name.word]) _ Identifier.unplaced Identifier.unplaced (fun _ => True)
    (fun _ => True) function.segments hne
    (by
      intro name _ before taken ahead h _
      obtain ⟨token, rfl, htoken⟩ := List.map_eq_singleton_iff.mp h
      exact ⟨_, ⟨identifier_takes hstop (kind_of_word htoken), by simp⟩,
        unplaced_identifierOf htoken⟩)
    (by simp)
    (by
      intro before gap ahead h _
      obtain ⟨token, rfl, htoken⟩ := List.map_eq_singleton_iff.mp h
      exact eats_takes hstop (kind_of_word htoken))
    (by simp) before ahead trivial (fun _ => eats_takes_nil hstop hahead) h
  obtain ⟨span, hspan⟩ := lastSpan_takes stop (before ++ taken) ahead
  exact ⟨_, (series_takes hseries).bind_pure (hspan.bind_nil (takes_pure _)), by
    rw [Entity.unplaced, Entity.unplaced, hnames]⟩

theorem anotherFieldStep_takes {before ahead : List Token} {dot : Token} (hdot : dot.kind = .dot)
    (hahead : firstKind ahead = .identifier) :
    anotherFieldStep.Takes stop before [dot] ahead true := by
  rw [Takes, anotherFieldStep, bind_eq (atFieldStep_eq hstop), if_pos]
  · exact (take_takes dot).bind_pure (takes_pure true)
  · simp [hdot, hahead]

theorem anotherFieldStep_takes_nil {before ahead : List Token} (hahead : firstKind ahead ≠ .dot) :
    anotherFieldStep.Takes stop before [] ahead false := by
  rw [Takes, anotherFieldStep, bind_eq (atFieldStep_eq hstop), if_neg]
  · exact takes_pure false
  · simp [hahead]

theorem fieldSegment_takes {segment : FieldSegment} {before taken ahead : List Token}
    (h : taken.map Token.word = segment.words) (hahead : firstKind ahead ≠ .question) :
    ∃ segment', fieldSegment.TakesSome stop before taken ahead segment' ∧
      segment'.unplaced = segment.unplaced := by
  obtain ⟨name, optional⟩ := segment
  cases optional with
  | false =>
    obtain ⟨token, rfl, htoken⟩ := List.map_eq_singleton_iff.mp h
    refine ⟨⟨identifierOf token, false⟩, ⟨?_, by simp⟩, ?_⟩
    · exact (take_takes token).bind_pure ((eats_takes_nil hstop hahead).bind_nil (takes_pure _))
    · rw [FieldSegment.unplaced, unplaced_identifierOf htoken]
      rfl
  | true =>
    obtain ⟨token, rest, rfl, htoken, hrest⟩ := List.map_eq_cons_iff.mp h
    obtain ⟨mark, rfl, hmark⟩ := List.map_eq_singleton_iff.mp hrest
    refine ⟨⟨identifierOf token, true⟩, ⟨?_, by simp⟩, ?_⟩
    · exact (take_takes token).bind
        ((eats_takes hstop (kind_of_word hmark)).bind_pure (takes_pure _))
    · rw [FieldSegment.unplaced, unplaced_identifierOf htoken]
      rfl

omit hstop in
theorem cons_of_fieldWords {segments : List FieldSegment} (hne : segments ≠ [])
    {tokens : List Token}
    (h : tokens.map Token.word = List.intercalate [(.dot, ".")] (segments.map (·.words))) :
    ∃ first rest, tokens = first :: rest ∧ first.kind = .identifier := by
  match segments with
  | [] => exact absurd rfl hne
  | [segment] =>
    obtain ⟨first, rest, rfl, hfirst, -⟩ := List.map_eq_cons_iff.mp h
    exact ⟨first, rest, rfl, kind_of_word hfirst⟩
  | segment :: other :: others =>
    rw [List.map_cons, List.map_cons, List.intercalate_cons_cons] at h
    obtain ⟨first, rest, rfl, hfirst, -⟩ := List.map_eq_cons_iff.mp h
    exact ⟨first, rest, rfl, kind_of_word hfirst⟩

theorem fieldPath_takes {segments : List FieldSegment} (hne : segments ≠ []) (start : Span)
    (rooted : Bool) (before : List Token) {taken ahead : List Token}
    (h : taken.map Token.word = List.intercalate [(.dot, ".")] (segments.map (·.words)))
    (hahead : firstKind ahead = .assign) :
    ∃ segments' span, (fieldPath start rooted).Takes stop before taken ahead
        (.field ⟨rooted, segments', span⟩) ∧
      segments'.map (·.unplaced) = segments.map (·.unplaced) := by
  obtain ⟨segments', hseries, hsegments⟩ := exists_series fieldSegment anotherFieldStep
    (fun segment : FieldSegment => segment.words) _ FieldSegment.unplaced FieldSegment.unplaced
    (fun ahead => firstKind ahead ≠ .question) (fun ahead => firstKind ahead = .identifier)
    segments hne
    (fun _ _ _ _ _ h hahead => fieldSegment_takes hstop h hahead)
    (by
      intro segment _ taken ahead h
      obtain ⟨token, rest, rfl, htoken, -⟩ := List.map_eq_cons_iff.mp h
      exact kind_of_word htoken)
    (by
      intro before gap ahead h hahead
      obtain ⟨dot, rfl, hdot⟩ := List.map_eq_singleton_iff.mp h
      exact anotherFieldStep_takes hstop (kind_of_word hdot) hahead)
    (by
      intro gap ahead h
      obtain ⟨dot, rfl, hdot⟩ := List.map_eq_singleton_iff.mp h
      simp [kind_of_word hdot])
    before ahead (by simp [hahead])
    (fun _ => anotherFieldStep_takes_nil hstop (by simp [hahead])) h
  obtain ⟨span, hspan⟩ := lastSpan_takes stop (before ++ taken) ahead
  exact ⟨segments', _, (series_takes hseries).bind_pure (hspan.bind_nil (takes_pure _)),
    hsegments⟩

/-- A selector before an equals sign is read from its words. -/
theorem selector?_takes (before : List Token) {taken : List Token} (ahead : List Token)
    {target : Selector} (hlegible : target.Legible) (h : taken.map Token.word = target.words)
    (hahead : firstKind ahead = .assign) :
    ∃ target', selector?.Takes stop before taken ahead (some target') ∧
      target'.unplaced = target.unplaced := by
  cases target with
  | metadata selector =>
    obtain ⟨sign, rest, rfl, hsign, hrest⟩ := List.map_eq_cons_iff.mp h
    obtain ⟨name, rfl, hname⟩ := List.map_eq_singleton_iff.mp hrest
    refine ⟨.metadata ⟨identifierOf name, sign.span.through name.span⟩,
      commit_takes ((peek_takes sign).bind_nil ?_), ?_⟩
    · rw [kind_of_word hsign]
      exact (take_takes sign).bind
        ((eat_takes hstop (kind_of_word hname)).bind_pure (takes_pure _))
    · simp only [Selector.unplaced, MetaSelector.unplaced, unplaced_identifierOf hname]
  | field selector =>
    obtain ⟨rooted, segments, span⟩ := selector
    cases rooted with
    | false =>
      have hne : segments ≠ [] := hlegible.resolve_left (by simp)
      have hwords : taken.map Token.word =
          List.intercalate [(.dot, ".")] (segments.map (·.words)) := h
      obtain ⟨first, rest, rfl, hfirst⟩ := cons_of_fieldWords hne hwords
      obtain ⟨segments', span', hpath, hsegments⟩ :=
        fieldPath_takes hstop hne first.span false before hwords hahead
      refine ⟨.field ⟨false, segments', span'⟩,
        commit_takes ((peek_takes first).bind_nil ?_), ?_⟩
      · rw [hfirst]
        exact hpath.bind_pure (takes_pure _)
      · simp only [Selector.unplaced, hsegments]
    | true =>
      cases segments with
      | nil =>
        obtain ⟨this, rfl, hthis⟩ := List.map_eq_singleton_iff.mp h
        refine ⟨.field ⟨true, [], this.span⟩, commit_takes ((peek_takes this).bind_nil ?_), rfl⟩
        rw [kind_of_word hthis]
        exact (take_takes this).bind_pure
          ((anotherFieldStep_takes_nil hstop (by simp [hahead])).bind_nil (takes_pure _))
      | cons segment segments =>
        obtain ⟨this, rest, rfl, hthis, hrest⟩ := List.map_eq_cons_iff.mp h
        obtain ⟨dot, steps, rfl, hdot, hwords⟩ := List.map_eq_cons_iff.mp hrest
        obtain ⟨first, steps, rfl, hfirst⟩ := cons_of_fieldWords (List.cons_ne_nil _ _) hwords
        obtain ⟨segments', span', hpath, hsegments⟩ := fieldPath_takes hstop
          (List.cons_ne_nil _ _) this.span true (before ++ [this] ++ [dot]) hwords hahead
        refine ⟨.field ⟨true, segments', span'⟩,
          commit_takes ((peek_takes this).bind_nil ?_), ?_⟩
        · rw [kind_of_word hthis]
          have hstep : anotherFieldStep.Takes stop (before ++ [this]) [dot]
              (first :: steps ++ ahead) true :=
            anotherFieldStep_takes hstop (kind_of_word hdot) hfirst
          exact (take_takes this).bind (hstep.bind (hpath.bind_pure (takes_pure _)))
        · simp only [Selector.unplaced, hsegments]

end

end Grammar

end PipelineLang
