import TreeQuery.Proofs.Sorting.Merging
/-!
# Short lists

Four elements are sorted by five comparisons, whatever is known of the order they come in, and a
short list by halves.
-/

namespace TreeQuery
namespace Comparing

variable {α : Type} {cmp : α → α → Ordering} {u : α → Prop} {a b c d : α}

/-- What is sorted at the start of a list, the last element first, and what follows. -/
def Begins (cmp : α → α → Ordering) (as : List α) (p : List α × List α) : Prop :=
  (p.1 ++ p.2).Perm as ∧ Falling cmp p.1

theorem Begins.of_arranges {low as : List α} (rest : List α) (h : Arranges cmp low as) :
    Begins cmp (low ++ rest) (as.reverse, rest) :=
  ⟨((List.reverse_perm as).trans h.perm).append_right rest, List.pairwise_reverse.mpr h.rising⟩

variable [Std.TransCmp cmp]

theorem inOrder_gives (ha : u a) (hb : u b) :
    (inOrder a b).Gives cmp u fun p => (cmp p.1 p.2).isLE ∧ (p = (a, b) ∨ p = (b, a)) :=
  Gives.branch (.less hb ha) (fun hlt => Gives.pure ⟨isLE_of_lt hlt, .inr rfl⟩)
    fun hlt => Gives.pure ⟨isLE_of_not_lt hlt, .inl rfl⟩

theorem rising_four (hab : (cmp a b).isLE) (hbc : (cmp b c).isLE) (hcd : (cmp c d).isLE) :
    Rising cmp [a, b, c, d] := by
  have hac := Std.TransCmp.isLE_trans hab hbc
  have hbd := Std.TransCmp.isLE_trans hbc hcd
  simp [hab, hbc, hcd, hac, hbd, Std.TransCmp.isLE_trans hab hbd]

theorem middle_gives {least x y greatest : α} {as : List α} (hx : u x) (hy : u y)
    (hlx : (cmp least x).isLE) (hly : (cmp least y).isLE) (hxg : (cmp x greatest).isLE)
    (hyg : (cmp y greatest).isLE) (hperm : [least, x, y, greatest].Perm as) :
    (inOrder x y >>= fun p => pure [least, p.1, p.2, greatest]).Gives cmp u (Arranges cmp as) := by
  refine (inOrder_gives hx hy).bind fun p hp => Gives.pure ?_
  obtain ⟨hle, rfl | rfl⟩ := hp
  · exact ⟨hperm, rising_four hlx hle hyg⟩
  · exact ⟨((List.Perm.swap x y [greatest]).cons least).trans hperm, rising_four hly hle hxg⟩

theorem mergePairs_gives (hu : ∀ x ∈ [a, b, c, d], u x) (hab : (cmp a b).isLE)
    (hcd : (cmp c d).isLE) : (mergePairs a b c d).Gives cmp u (Arranges cmp [a, b, c, d]) := by
  have ha : u a := hu a (by simp)
  have hb : u b := hu b (by simp)
  have hc : u c := hu c (by simp)
  have hd : u d := hu d (by simp)
  refine (Gives.less hc ha).bind fun ca hca => (Gives.less hd hb).bind fun db hdb => ?_
  have hca' : ca = false → (cmp a c).isLE := fun h => isLE_of_not_lt fun hlt => by
    simp [h, hlt] at hca
  have hdb' : db = false → (cmp b d).isLE := fun h => isLE_of_not_lt fun hlt => by
    simp [h, hlt] at hdb
  cases ca with
  | false =>
    have hac := hca' rfl
    cases db with
    | false => exact middle_gives hb hc hab hac (hdb' rfl) hcd (.refl _)
    | true =>
      have hdb := isLE_of_lt (hdb.mp rfl)
      have hperm : [c, d, b].Perm [b, c, d] := List.perm_append_comm_assoc [c, d] [b] []
      exact middle_gives hc hd hac (Std.TransCmp.isLE_trans hac hcd)
        (Std.TransCmp.isLE_trans hcd hdb) hdb (hperm.cons a)
  | true =>
    have hca := isLE_of_lt (hca.mp rfl)
    cases db with
    | false =>
      exact middle_gives ha hb hca (Std.TransCmp.isLE_trans hca hab)
        (Std.TransCmp.isLE_trans hab (hdb' rfl)) (hdb' rfl)
        (List.perm_append_comm_assoc [c] [a, b] [d])
    | true =>
      have hperm : [a, d, b].Perm [a, b, d] := (List.Perm.swap b d []).cons a
      exact middle_gives ha hd hca hcd hab (isLE_of_lt (hdb.mp rfl))
        ((hperm.cons c).trans (List.perm_append_comm_assoc [c] [a, b] [d]))

theorem sort4_gives (hu : ∀ x ∈ [a, b, c, d], u x) :
    (sort4 a b c d).Gives cmp u (Arranges cmp [a, b, c, d]) := by
  refine (inOrder_gives (hu a (by simp)) (hu b (by simp))).bind fun p hp => ?_
  refine (inOrder_gives (hu c (by simp)) (hu d (by simp))).bind fun q hq => ?_
  obtain ⟨hp, hp'⟩ := hp
  obtain ⟨hq, hq'⟩ := hq
  have hperm : [p.1, p.2, q.1, q.2].Perm [a, b, c, d] := by
    have pair {x y : α} {r : α × α} (h : r = (x, y) ∨ r = (y, x)) : [r.1, r.2].Perm [x, y] := by
      rcases h with rfl | rfl
      · exact .refl _
      · exact .swap x y []
    exact (pair hp').append (pair hq')
  exact (mergePairs_gives (fun x hx => hu x (hperm.mem_iff.mp hx)) hp hq).imp fun out hout =>
    ⟨hout.perm.trans hperm, hout.rising⟩

theorem presort_gives (n : Nat) {as : List α} (hu : ∀ a ∈ as, u a) :
    (presort n as).Gives cmp u (Begins cmp as) := by
  have nothing : (pure ([], as) : Comparing α _).Gives cmp u (Begins cmp as) :=
    Gives.pure ⟨.refl _, .nil⟩
  unfold presort
  split
  · next a b c d rest =>
    split
    · exact nothing
    refine (sort4_gives fun x hx => hu x (List.mem_append_left rest hx)).bind fun low hlow => ?_
    split
    · next e f g h rest =>
      split
      · exact Gives.pure (.of_arranges _ hlow)
      refine (sort4_gives fun x hx => hu x
        (List.mem_append_right [a, b, c, d] (List.mem_append_left rest hx))).bind
          fun high hhigh => ?_
      have hperm : (low ++ high).Perm ([a, b, c, d] ++ [e, f, g, h]) := hlow.perm.append hhigh.perm
      refine (mergeEnds_gives hlow.rising hhigh.rising (fun x hx => hu x ?_) ?_).bind
        fun out hout => ?_
      · exact List.mem_append_left rest (hperm.mem_iff.mp hx)
      · exact .inl (hhigh.perm.length_eq.trans hlow.perm.length_eq.symm)
      · exact Gives.pure (.of_arranges rest ⟨hout.perm.trans hperm, hout.rising⟩)
    · exact Gives.pure (.of_arranges _ hlow)
  · exact nothing

theorem sortShort_gives {as : List α} (hu : ∀ a ∈ as, u a) :
    (sortShort as).Gives cmp u (Arranges cmp as) := by
  unfold sortShort
  dsimp only
  split
  · next hlen =>
    refine Gives.pure ⟨.refl _, ?_⟩
    cases as with
    | nil => exact .nil
    | cons a as =>
      rw [List.length_cons] at hlen
      obtain rfl : as = [] := List.eq_nil_of_length_eq_zero (by omega)
      exact List.pairwise_singleton _ a
  have hparts : as.take (as.length / 2) ++ as.drop (as.length / 2) = as := List.take_append_drop _ _
  have hlow : ∀ a ∈ as.take (as.length / 2), u a := fun a ha => hu a (List.mem_of_mem_take ha)
  have hhigh : ∀ a ∈ as.drop (as.length / 2), u a := fun a ha => hu a (List.mem_of_mem_drop ha)
  refine (presort_gives as.length hlow).bind ?_
  rintro ⟨low, lows⟩ ⟨hperm, hfalling⟩
  refine (presort_gives as.length hhigh).bind ?_
  rintro ⟨high, highs⟩ ⟨hperm', hfalling'⟩
  refine (sinkAll_gives low (fun a ha => hlow a (hperm.mem_iff.mp ha)) hfalling).bind
    fun left hleft => ?_
  refine (sinkAll_gives high (fun a ha => hhigh a (hperm'.mem_iff.mp ha)) hfalling').bind
    fun right hright => ?_
  have hl : left.reverse.Perm (as.take (as.length / 2)) :=
    (List.reverse_perm left).trans (hleft.1.trans hperm)
  have hr : right.reverse.Perm (as.drop (as.length / 2)) :=
    (List.reverse_perm right).trans (hright.1.trans hperm')
  have hall : (left.reverse ++ right.reverse).Perm as := hparts ▸ hl.append hr
  refine (mergeEnds_gives (List.pairwise_reverse.mpr hleft.2) (List.pairwise_reverse.mpr hright.2)
    (fun a ha => hu a (hall.mem_iff.mp ha)) ?_).imp fun out hout =>
      ⟨hout.perm.trans hall, hout.rising⟩
  rw [hl.length_eq, hr.length_eq, List.length_take, List.length_drop]
  omega

end Comparing
end TreeQuery
