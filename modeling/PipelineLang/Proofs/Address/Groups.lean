import PipelineLang.Proofs.Address.Shapes

/-!
# Addresses group by group

## Main definitions

- `Address.behindGroup` — what an address in groups goes on with behind a group

## Main results

- `Address.exact_matcher`, `Address.exact_subnetMatcher` — an address is one where the text
  ends behind it

## Design notes

Behind a group an address looks for more groups and may find that they do not fit. So it may
take less than it has looked at, and it is not one that cuts a text anywhere.
-/

namespace PipelineLang.Address

open Matcher

variable {rest text : List Char} {left n digits : Nat} {gap afterColon : Bool}

/-- What an address goes on with behind a group of `digits` digits. -/
def behindGroup (left : Nat) (gap : Bool) (digits : Nat) (rest : List Char) : Option Nat :=
  let here := if gap then some digits else none
  match rest with
  | ':' :: ':' :: rest =>
    if gap then here else some (digits + 2 + (moreGroups left true true rest).getD 0)
  | ':' :: c :: rest =>
    if Ascii.isHexDigit c then
      ((moreGroups left gap true (c :: rest)).map (digits + 1 + ·)).or here
    else here
  | _ => here

theorem moreGroups_succ (left : Nat) (gap afterColon : Bool) (text : List Char) :
    moreGroups (left + 1) gap afterColon text =
      match if afterColon then quadMatcher text else none with
      | some quad => if (if gap then 2 ≤ left else left = 1) then some quad else none
      | none =>
        let digits := (text.takeWhile Ascii.isHexDigit).length
        if digits = 0 || 4 < digits then none
        else if left = 0 then (if gap then none else some digits)
        else behindGroup left gap digits (text.drop digits) := rfl

theorem behindGroup_gap (left digits : Nat) (gap : Bool) (rest : List Char) :
    behindGroup left gap digits (':' :: ':' :: rest) =
      if gap then some digits
      else some (digits + 2 + (moreGroups left true true rest).getD 0) := by
  cases gap <;> rfl

theorem behindGroup_colon {c : Char} (hc : c ≠ ':') :
    behindGroup left gap digits (':' :: c :: rest) =
      if Ascii.isHexDigit c then
        ((moreGroups left gap true (c :: rest)).map (digits + 1 + ·)).or
          (if gap then some digits else none)
      else if gap then some digits else none := by
  simp [behindGroup]

/-- Where no colon with more behind it is next, nothing comes of a group but itself. -/
theorem behindGroup_end (h : ∀ c tail, rest ≠ ':' :: c :: tail) :
    behindGroup left gap digits rest = if gap then some digits else none := by
  unfold behindGroup
  generalize (if gap then some digits else none) = here
  dsimp only
  split
  · next tail => exact absurd rfl (h ':' tail)
  · next c tail _ => exact absurd rfl (h c tail)
  · rfl

theorem behindGroup_of_head (h : rest.head? ≠ some ':') :
    behindGroup left gap digits rest = if gap then some digits else none := by
  refine behindGroup_end ?_
  rintro c tail rfl
  exact h rfl

theorem moreGroups_nil (left : Nat) (gap afterColon : Bool) :
    moreGroups left gap afterColon [] = none := by
  cases left with
  | zero => rfl
  | succ left =>
    have hquad : (if afterColon then quadMatcher [] else none) = none := by cases afterColon <;> rfl
    rw [moreGroups_succ, hquad]
    rfl

theorem quadMatcher_pos (h : quadMatcher text = some n) : 0 < n := by
  obtain ⟨m, k, hm, -, rfl⟩ := followedBy_eq_some.mp h
  have := (run_eq_some.mp hm).2
  omega

/-- An address ends with a group only behind a gap; else it goes on with a gap, or with more
groups behind a colon. -/
theorem behindGroup_cases (h : behindGroup left gap digits rest = some n) :
    (gap = true ∧ n = digits) ∨
      (gap = false ∧ ∃ tail, rest = ':' :: ':' :: tail ∧
        n = digits + (2 + (moreGroups left true true tail).getD 0)) ∨
      ∃ c tail k, rest = ':' :: c :: tail ∧ c ≠ ':' ∧ Ascii.isHexDigit c ∧
        moreGroups left gap true (c :: tail) = some k ∧ n = digits + (1 + k) := by
  have hhere : (if gap then some digits else none) = some n → gap = true ∧ n = digits := by
    cases gap <;> simp [eq_comm]
  by_cases hend : ∀ c tail, rest ≠ ':' :: c :: tail
  · rw [behindGroup_end hend] at h
    exact .inl (hhere h)
  · simp only [ne_eq, not_forall, Classical.not_not] at hend
    obtain ⟨c, tail, rfl⟩ := hend
    by_cases hc : c = ':'
    · subst hc
      rw [behindGroup_gap] at h
      cases gap with
      | true => exact .inl (hhere h)
      | false =>
        have hn := (Option.some.inj h).symm
        exact .inr (.inl ⟨rfl, tail, rfl, by rw [hn, Nat.add_assoc]⟩)
    · rw [behindGroup_colon hc] at h
      split at h
      · next hhex =>
        obtain h | ⟨-, h⟩ := Option.or_eq_some_iff.mp h
        · obtain ⟨k, hk, rfl⟩ := Option.map_eq_some_iff.mp h
          exact .inr (.inr ⟨c, tail, k, rfl, hc, hhex, hk, Nat.add_assoc _ _ _⟩)
        · exact .inl (hhere h)
      · exact .inl (hhere h)

theorem le_of_behindGroup (h : behindGroup left gap digits rest = some n) : digits ≤ n := by
  obtain ⟨-, rfl⟩ | ⟨-, -, -, rfl⟩ | ⟨-, -, -, -, -, -, -, rfl⟩ := behindGroup_cases h <;> omega

theorem moreGroups_pos (h : moreGroups left gap afterColon text = some n) : 0 < n := by
  cases left with
  | zero => simp [moreGroups] at h
  | succ left =>
    rw [moreGroups_succ] at h
    split at h
    · next quad hquad =>
      rw [Option.ite_none_right_eq_some] at h
      rw [Option.ite_none_right_eq_some] at hquad
      rw [← Option.some.inj h.2]
      exact quadMatcher_pos hquad.2
    · dsimp only at h
      generalize (text.takeWhile Ascii.isHexDigit).length = digits at h
      split at h
      · simp at h
      · next hdigits =>
        have hpos : digits ≠ 0 := fun h0 => hdigits (by simp [h0])
        split at h
        · split at h
          · simp at h
          · have := Option.some.inj h
            omega
        · exact Nat.lt_of_lt_of_le (Nat.pos_of_ne_zero hpos) (le_of_behindGroup h)

/-! ### Addresses that end with a text -/

theorem cuts_quadMatcher : Cuts quadMatcher := by
  have hoctet : Cuts octetMatcher := cuts_run _ _ _
  have hpoint : Cuts (exactly '.') := cuts_char _
  exact hoctet.followedBy (hpoint.followedBy (hoctet.followedBy (hpoint.followedBy
    (hoctet.followedBy (hpoint.followedBy hoctet)))))

theorem stays_quadMatcher : Stays quadMatcher := by
  have hpoint : ∀ c : Char, c == '.' → c.isDigit = false := by
    intro c hc
    obtain rfl := beq_iff_eq.mp hc
    decide
  have hoctet : Stays octetMatcher := stays_run _ _ _
  exact stays_run_followedBy (stays_run_followedBy (stays_run_followedBy hoctet hpoint) hpoint)
    hpoint

theorem exists_of_append_cons_cons {a b : Char} {behind : List Char}
    (h : text ++ rest = a :: b :: behind) (hle : 2 ≤ text.length) :
    ∃ more, text = a :: b :: more ∧ behind = more ++ rest := by
  match text with
  | c :: d :: more =>
    simp only [List.cons_append, List.cons.injEq] at h
    obtain ⟨rfl, rfl, rfl⟩ := h
    exact ⟨more, rfl, rfl⟩

/-- So it is with what comes of more groups, or of none. -/
theorem exact_getD_moreGroups (h : Exact (moreGroups left true true))
    (hlength : (moreGroups left true true (text ++ rest)).getD 0 = text.length) :
    (moreGroups left true true text).getD 0 = text.length := by
  cases hmore : moreGroups left true true (text ++ rest) with
  | none =>
    rw [hmore, Option.getD_none] at hlength
    obtain rfl : text = [] := List.length_eq_zero_iff.mp hlength.symm
    rw [moreGroups_nil]
    rfl
  | some k =>
    rw [hmore, Option.getD_some] at hlength
    subst hlength
    rw [h hmore, Option.getD_some]

/-- What a group goes on with up to the end of a text, it goes on with in the text alone. -/
theorem exact_behindGroup (ih : ∀ gap, Exact (moreGroups left gap true)) {tail : List Char}
    (h : behindGroup left gap digits (tail ++ rest) = some (digits + tail.length)) :
    behindGroup left gap digits tail = some (digits + tail.length) := by
  obtain ⟨rfl, hn⟩ | ⟨rfl, behind, heq, hn⟩ | ⟨c, behind, k, heq, hc, hhex, hk, hn⟩ :=
    behindGroup_cases h
  · obtain rfl : tail = [] := List.length_eq_zero_iff.mp (by omega)
    rfl
  · obtain ⟨more, rfl, rfl⟩ := exists_of_append_cons_cons heq (by omega)
    simp only [List.length_cons] at hn ⊢
    have hmore : (moreGroups left true true (more ++ rest)).getD 0 = more.length := by omega
    rw [behindGroup_gap, if_neg (by simp), exact_getD_moreGroups (ih true) hmore]
    simp only [Option.some.injEq]
    omega
  · have hpos := moreGroups_pos hk
    obtain ⟨more, rfl, rfl⟩ := exists_of_append_cons_cons heq (by omega)
    simp only [List.length_cons] at hn ⊢
    obtain rfl : k = (c :: more).length := by
      rw [List.length_cons]
      omega
    rw [behindGroup_colon hc, if_pos hhex, ih gap hk, Option.map_some, Option.some_or]
    simp only [List.length_cons, Option.some.injEq]
    omega

theorem exact_moreGroups (left : Nat) (gap afterColon : Bool) :
    Exact (moreGroups left gap afterColon) := by
  induction left generalizing gap afterColon with
  | zero => intro text rest h; simp [moreGroups] at h
  | succ left ih =>
    intro text rest h
    rw [moreGroups_succ] at h ⊢
    cases hquad : (if afterColon then quadMatcher (text ++ rest) else none) with
    | some quad =>
      rw [hquad] at h
      dsimp only at h
      rw [Option.ite_none_right_eq_some] at h hquad
      obtain ⟨hfits, hlength⟩ := h
      obtain ⟨rfl, hquad⟩ := hquad
      obtain rfl := Option.some.inj hlength
      rw [if_pos rfl, cuts_quadMatcher.exact hquad]
      dsimp only
      rw [if_pos hfits]
    | none =>
      rw [hquad] at h
      dsimp only at h
      have hnone : (if afterColon then quadMatcher text else none) = none := by
        cases afterColon with
        | false => rfl
        | true => exact stays_quadMatcher.eq_none hquad
      rw [hnone]
      dsimp only
      have hle : ((text ++ rest).takeWhile Ascii.isHexDigit).length ≤ text.length := by
        split at h
        · simp at h
        split at h
        · split at h
          · simp at h
          · exact Nat.le_of_eq (Option.some.inj h)
        · exact le_of_behindGroup h
      have hdigits := takeWhile_cut hle
      rw [← hdigits] at h hle
      split at h
      · simp at h
      · next hsome =>
        rw [if_neg hsome]
        split at h
        · next hleft => rw [if_pos hleft, h]
        · next hleft =>
          rw [if_neg hleft]
          rw [List.drop_append_of_le_length hle] at h
          have hlength : text.length = (text.takeWhile Ascii.isHexDigit).length +
              (text.drop (text.takeWhile Ascii.isHexDigit).length).length := by
            rw [List.length_drop]
            omega
          rw [hlength] at h ⊢
          exact exact_behindGroup (fun gap => ih gap true) h

theorem exact_groupsMatcher : Exact groupsMatcher := by
  intro text rest h
  by_cases hopen : ∃ tail, text ++ rest = ':' :: ':' :: tail
  · obtain ⟨tail, heq⟩ := hopen
    rw [heq, groupsMatcher, Option.some.injEq] at h
    obtain ⟨more, rfl, rfl⟩ := exists_of_append_cons_cons heq (by omega)
    rw [List.length_cons, List.length_cons] at h ⊢
    have hmore : (moreGroups 8 true true (more ++ rest)).getD 0 = more.length := by omega
    rw [groupsMatcher, exact_getD_moreGroups (exact_moreGroups 8 true true) hmore, Nat.add_comm]
  · rw [not_exists] at hopen
    have hopen' : ∀ tail, text ≠ ':' :: ':' :: tail := by
      rintro tail rfl
      exact hopen (tail ++ rest) rfl
    rw [groupsMatcher_eq hopen] at h
    rw [groupsMatcher_eq hopen']
    exact exact_moreGroups 8 false false h

theorem exact_matcher : Exact matcher :=
  cuts_quadMatcher.exact.longer exact_groupsMatcher bounded_quadMatcher bounded_groupsMatcher

theorem exact_subnetMatcher : Exact subnetMatcher := by
  have hlength : ∀ most, Cuts (lengthMatcher most) :=
    fun most => (cuts_char _).followedBy (cuts_run _ _ _)
  have hgroups : Exact (groupsMatcher.followedBy (lengthMatcher 3)) := by
    intro text rest h
    obtain ⟨m, k, hm, hk, hn⟩ := followedBy_eq_some.mp h
    have hle : m ≤ text.length := by omega
    rw [List.drop_append_of_le_length hle] at hk
    have hk := hlength 3 hk (by rw [List.length_drop]; omega)
    refine followedBy_eq_some.mpr ⟨m, k, ?_, hk, hn⟩
    -- The address ends before a slash, which no address goes on with.
    obtain ⟨one, j, hone, -, -⟩ := followedBy_eq_some.mp hk
    obtain ⟨c, behind, hdrop, hslash, -⟩ := char_eq_some.mp hone
    obtain rfl := beq_iff_eq.mp hslash
    have hends : Ends (text.drop m) := by
      rw [hdrop]
      exact ⟨by simp; decide, by simp⟩
    have htake : (text.take m).length = m := List.length_take_of_le hle
    have halone : groupsMatcher (text.take m) = some m := by
      have hm :
          groupsMatcher (text.take m ++ (text.drop m ++ rest)) = some (text.take m).length := by
        rw [← List.append_assoc, List.take_append_drop, htake, hm]
      rw [exact_groupsMatcher hm, htake]
    rw [← List.take_append_drop m text, deaf_groupsMatcher hends, halone]
  exact ((cuts_quadMatcher.followedBy (hlength 2)).exact).longer hgroups
    (bounded_quadMatcher.followedBy (bounded_lengthMatcher 2))
    (bounded_groupsMatcher.followedBy (bounded_lengthMatcher 3))

end PipelineLang.Address
