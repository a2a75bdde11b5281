import Mathlib.Data.List.Sort

/-!
# Keeping the newest rows of a group

A table often bounds the rows of one group (those that satisfy `p`) by deleting all but the
`k` newest.  `retain` is that deletion, by key, as a database does it: the doomed rows are
selected by an order, and deleted by their keys.  Rows outside the group stay, whatever
their keys.
-/

namespace Retention

variable {α κ : Type*} [DecidableEq κ] {newer : α → α → Prop} [DecidableRel newer]
  {p : α → Bool} {key : α → κ} {k : Nat} {rows : List α}

/-- The rows of the group from newest to oldest. -/
def ranked (newer : α → α → Prop) [DecidableRel newer] (p : α → Bool) (rows : List α) : List α :=
  (rows.filter p).insertionSort newer

/-- All rows but those of the group that are not among its `k` newest. -/
def retain (newer : α → α → Prop) [DecidableRel newer] (p : α → Bool) (key : α → κ) (k : Nat)
    (rows : List α) : List α :=
  rows.filter fun r => !(p r && ((ranked newer p rows).drop k).any fun d => key d = key r)

theorem ranked_perm : (ranked newer p rows).Perm (rows.filter p) :=
  List.perm_insertionSort newer _

theorem mem_ranked {r : α} : r ∈ ranked newer p rows ↔ r ∈ rows ∧ p r = true := by
  rw [ranked_perm.mem_iff, List.mem_filter]

omit [DecidableEq κ] in
theorem nodup_ranked (hkey : (rows.map key).Nodup) : (ranked newer p rows).Nodup :=
  ranked_perm.nodup_iff.mpr ((List.Nodup.of_map _ hkey).filter _)

theorem retain_sublist : (retain newer p key k rows).Sublist rows := List.filter_sublist

/-- Of the group, the newest stay. -/
theorem mem_retain_iff (hkey : (rows.map key).Nodup) {r : α} (hp : p r = true) :
    r ∈ retain newer p key k rows ↔ r ∈ (ranked newer p rows).take k := by
  have hsplit := List.take_append_drop k (ranked newer p rows)
  have hnodup : ((ranked newer p rows).take k ++ (ranked newer p rows).drop k).Nodup := by
    rw [hsplit]
    exact nodup_ranked hkey
  simp only [retain, List.mem_filter, hp, Bool.true_and, Bool.not_eq_true', List.any_eq_false,
    decide_eq_true_eq]
  constructor
  · rintro ⟨hr, hkept⟩
    have hmem : r ∈ ranked newer p rows := mem_ranked.mpr ⟨hr, hp⟩
    rw [← hsplit] at hmem
    exact (List.mem_append.mp hmem).resolve_right fun hdrop => hkept r hdrop rfl
  · intro hr
    refine ⟨(mem_ranked.mp (List.mem_of_mem_take hr)).1, fun d hd heq => ?_⟩
    have hrows : d ∈ rows := (mem_ranked.mp (List.mem_of_mem_drop hd)).1
    have hsame : d = r := List.inj_on_of_nodup_map hkey hrows
      (mem_ranked.mp (List.mem_of_mem_take hr)).1 heq
    subst hsame
    exact List.disjoint_of_nodup_append hnodup hr hd

/-- What is left of the group is its `k` newest rows. -/
theorem filter_retain_perm (hkey : (rows.map key).Nodup) :
    ((retain newer p key k rows).filter p).Perm ((ranked newer p rows).take k) := by
  have hrows : ((retain newer p key k rows).filter p).Nodup :=
    ((List.Nodup.of_map _ hkey).sublist retain_sublist).filter _
  refine (List.perm_ext_iff_of_nodup hrows ((nodup_ranked hkey).sublist
    (List.take_sublist _ _))).mpr fun r => ?_
  rw [List.mem_filter]
  constructor
  · rintro ⟨hr, hp⟩
    exact (mem_retain_iff hkey hp).mp hr
  · intro hr
    have hp := (mem_ranked.mp (List.mem_of_mem_take hr)).2
    exact ⟨(mem_retain_iff hkey hp).mpr hr, hp⟩

theorem length_filter_retain_le (hkey : (rows.map key).Nodup) :
    ((retain newer p key k rows).filter p).length ≤ k := by
  rw [(filter_retain_perm hkey).length_eq]
  exact List.length_take_le _ _

/-- A group that was within the bound loses nothing. -/
theorem retain_eq_self (h : (rows.filter p).length ≤ k) : retain newer p key k rows = rows := by
  have hdrop : (ranked newer p rows).drop k = [] :=
    List.drop_eq_nil_of_le (by rwa [ranked_perm.length_eq])
  simp [retain, hdrop]

/-- Another group is left as it was. -/
theorem filter_retain_of_disjoint {q : α → Bool} (h : ∀ r, q r = true → p r = false) :
    (retain newer p key k rows).filter q = rows.filter q := by
  unfold retain
  rw [List.filter_filter]
  refine List.filter_congr fun r _ => ?_
  cases hq : q r with
  | false => rfl
  | true => simp [h r hq]

/-- What is left of a group depends on the group alone. -/
theorem filter_retain_congr {rows' : List α} (h : rows.filter p = rows'.filter p) :
    (retain newer p key k rows).filter p = (retain newer p key k rows').filter p := by
  have hleft : ∀ xs : List α, (retain newer p key k xs).filter p = (xs.filter p).filter
      fun r => !((((xs.filter p).insertionSort newer).drop k).any fun d => key d = key r) := by
    intro xs
    unfold retain ranked
    rw [List.filter_filter, List.filter_filter]
    refine List.filter_congr fun r _ => ?_
    cases hp : p r with
    | false => simp
    | true => simp
  rw [hleft, hleft, h]

section Order

variable [Std.Total newer] [IsTrans α newer]

/-- A row that goes is older than every row of the group that stays. -/
theorem newer_of_retained (hkey : (rows.map key).Nodup) {r s : α} (hr : r ∈ rows)
    (hp : p r = true) (hgone : r ∉ retain newer p key k rows)
    (hs : s ∈ retain newer p key k rows) (hps : p s = true) : newer s r := by
  have hsplit := List.take_append_drop k (ranked newer p rows)
  have hsorted : ((ranked newer p rows).take k ++ (ranked newer p rows).drop k).Pairwise newer := by
    rw [hsplit]
    exact List.pairwise_insertionSort newer _
  have hdrop : r ∈ (ranked newer p rows).drop k := by
    have hmem : r ∈ ranked newer p rows := mem_ranked.mpr ⟨hr, hp⟩
    rw [← hsplit] at hmem
    exact (List.mem_append.mp hmem).resolve_left fun h => hgone ((mem_retain_iff hkey hp).mpr h)
  exact (List.pairwise_append.mp hsorted).2.2 s ((mem_retain_iff hkey hps).mp hs) r hdrop

end Order

/-- Rows only go when the group had more than the bound, and then the bound is met exactly. -/
theorem length_filter_retain_of_gone (hkey : (rows.map key).Nodup) {r : α} (hr : r ∈ rows)
    (hgone : r ∉ retain newer p key k rows) :
    ((retain newer p key k rows).filter p).length = k := by
  have hlong : k < (rows.filter p).length := by
    by_contra hle
    rw [retain_eq_self (not_lt.mp hle)] at hgone
    exact hgone hr
  rw [(filter_retain_perm hkey).length_eq, List.length_take, ranked_perm.length_eq]
  omega

end Retention
