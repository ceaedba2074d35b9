import BreezeJs.Library.Association
import BreezeJs.Std.SearchParams

set_option autoImplicit false

namespace BreezeJs.Infra.URLSearchParams

open Association

def get (name : Bytes) (list : PairList) : Bytes :=
  match list.find? fun pair => pair.1 == name with
  | some pair => pair.2
  | none => []

def getAll (name : Bytes) (list : PairList) : List Bytes :=
  (list.filter fun pair => pair.1 == name).map Prod.snd

def has (name value : Bytes) (list : PairList) : Bool :=
  if value.isEmpty then list.any fun pair => pair.1 == name
  else list.any fun pair => pair.1 == name && pair.2 == value

theorem getAll_eq_values (name : Bytes) (list : PairList) :
    getAll name list = values id name list := by
  simp [getAll, values, beq_eq_decide]

theorem get_eq_head (name : Bytes) (list : PairList) :
    get name list = (getAll name list).headD [] := by
  induction list with
  | nil => rfl
  | cons pair rest ih =>
      simp only [get, getAll] at ih ⊢
      by_cases here : pair.1 = name <;> simp [here, ih]

theorem has_iff (name value : Bytes) (list : PairList) :
    has name value list = true ↔
      if value = [] then getAll name list ≠ [] else value ∈ getAll name list := by
  by_cases empty : value = []
  · simp [has, getAll, empty]
  · simp [has, getAll, empty]

end BreezeJs.Infra.URLSearchParams

namespace BreezeJs.UrlStore

open Transition Infra Association

def Store.ownerOf (s : Store) (p : Nat) : Option Nat :=
  s.params[p]?.bind fun params => params.urlObject

def Owned (s : Store) : Prop :=
  ∀ p u, s.ownerOf p = some u → ∃ q, s.currentParams u = some q

section Objects

variable {dot : UInt8 → Bool} {s t : Store} {a : Action} {u p q : Nat} {params : Params}

theorem ownerOf_updateList (f : PairList → PairList) :
    (s.updateList p f).ownerOf q = s.ownerOf q := by
  rw [Store.ownerOf, Store.ownerOf, params_updateList, Option.bind_map]
  congr 1
  funext params
  simp only [Function.comp_apply]
  split_ifs <;> rfl

theorem ownerOf_setSearch {newSearch : Bytes} (taken : s.setSearch u newSearch = some t) :
    t.ownerOf q = s.ownerOf q := by
  rw [setSearch_eq] at taken
  obtain ⟨p, _, rfl⟩ := Option.map_eq_some_iff.mp taken
  exact ownerOf_updateList _

theorem ownerOf_edit {f : PairList → PairList} (taken : s.edit p f = some t) :
    t.ownerOf q = s.ownerOf q := by
  obtain ⟨object, _, updated⟩ := Option.bind_eq_some_iff.mp taken
  split at updated
  · cases updated
    exact ownerOf_updateList f
  · exact (ownerOf_setSearch updated).trans (ownerOf_updateList f)

theorem ownerOf_mutate {mutation : Mutation} (taken : s.mutate p mutation = some t) :
    t.ownerOf q = s.ownerOf q := by
  let unchanged (w : Store) : Prop := w.ownerOf q = s.ownerOf q
  have start : unchanged s := rfl
  exact mutate_of_edit (fun _ _ _ edited same => (ownerOf_edit edited).trans same) taken start

theorem ownerOf_parsed (components : Components) :
    (s.parsed u components).ownerOf q =
      if q = s.params.length then some u else s.ownerOf q := by
  simp only [Store.ownerOf, Store.parsed, params_updateUrl]
  split_ifs with fresh
  · simp [fresh]
  · rcases Nat.lt_or_gt_of_ne fresh with inside | outside
    · rw [List.getElem?_append_left inside]
    · rw [List.getElem?_eq_none (by simp; omega), List.getElem?_eq_none (by omega)]

theorem ownerOf_withParams (list : PairList) : (s.withParams list).ownerOf q = s.ownerOf q := by
  simp only [Store.ownerOf, Store.withParams, List.getElem?_append]
  split_ifs with inside
  · rfl
  · rw [List.getElem?_eq_none (Nat.le_of_not_lt inside)]
    cases q - s.params.length <;> rfl

theorem owned_edit (owned : Owned s) {f : PairList → PairList} (taken : s.edit p f = some t) :
    Owned t := by
  intro q u back
  rw [(current_edit taken).1]
  exact owned q u (ownerOf_edit taken ▸ back)

theorem ownerOf_step (taken : Step dot s a t) :
    t.ownerOf q = s.ownerOf q ∨ ∀ u, t.ownerOf q = some u → ∃ p, t.currentParams u = some p := by
  cases taken with
  | @newUrl urlString components matched =>
      rw [ownerOf_parsed]
      split_ifs with fresh
      · right
        rintro _ ⟨⟩
        exact ⟨_, currentParams_parsed_same components (by simp [Store.withBlank])⟩
      · exact .inl rfl
  | newParams list => exact .inl (ownerOf_withParams list)
  | setSearch found => exact .inl (ownerOf_setSearch found)
  | @setHref u newHref components here matched =>
      rw [ownerOf_parsed]
      split_ifs with fresh
      · right
        rintro _ ⟨⟩
        exact ⟨_, currentParams_parsed_same components here⟩
      · exact .inl rfl
  | mutate found => exact .inl (ownerOf_mutate found)
  | _ => exact .inl rfl

theorem owned_step (taken : Step dot s a t) (owned : Owned s) : Owned t := by
  intro q u back
  rcases ownerOf_step (q := q) taken with same | made
  · obtain ⟨p, current⟩ := owned q u (same ▸ back)
    exact ⟨_, current_step taken current⟩
  · exact made u back

theorem owned_reachable (reached : Reachable (system dot) s) : Valid s ∧ Owned s := by
  apply reached.invariant fun s => Valid s ∧ Owned s
  · rintro _ rfl
    exact ⟨valid_initial, by simp [Owned, Store.ownerOf, initial]⟩
  · rintro s a t ⟨valid, owned⟩ taken
    have stepped := step_some valid taken
    exact ⟨valid_step stepped valid, owned_step stepped owned⟩

theorem edit_owned (owned : Owned s) {object : Option Nat} {list : PairList}
    (here : s.params[p]? = some ⟨list, object⟩) (f : PairList → PairList) :
    ∃ t, s.edit p f = some t ∧ Owned t ∧ t.params[p]? = some ⟨f list, object⟩ := by
  cases object with
  | none =>
      have written := edit_alone here f
      exact ⟨_, written, owned_edit owned written, edited_params here f⟩
  | some u =>
      obtain ⟨q, current⟩ := owned p u (by rw [Store.ownerOf, here, Option.bind_some])
      have written := edit_through here current f
      refine ⟨_, written, owned_edit owned written, ?_⟩
      rw [Store.write, params_updateList, params_updateUrl, edited_params here f]
      simp [URLSearchParams.parseQueryString_toString]

theorem mutate_owned (owned : Owned s) {object : Option Nat} {list : PairList}
    (here : s.params[p]? = some ⟨list, object⟩) (mutation : Mutation) :
    ∃ t, s.mutate p mutation = some t ∧ Owned t ∧
      t.params[p]? = some ⟨mutation.apply list, object⟩ := by
  apply mutate_goes (fun s list => Owned s ∧ s.params[p]? = some ⟨list, object⟩)
    fun s list => Owned s ∧ s.params[p]? = some ⟨list, object⟩
  · intro s list still
    exact still
  · rintro s list f ⟨owned, here⟩
    exact edit_owned owned here f
  · exact ⟨owned, here⟩

end Objects

section Set

variable {dot : UInt8 → Bool} {s : Store} {p : Nat} {list : PairList}

theorem removePairs_name (name : Bytes) (list : PairList) :
    removePairs name [] list = without id name list := by
  simp [removePairs, without, beq_eq_decide]

def SetsInPlace (s : Store) (p : Nat) (list : PairList) (name value : Bytes) : Prop :=
  ∃ t, s.set p name value = some t ∧ t.listOf p = some (replaceAll id name value list)

/-- `set` replaces a pair in its place exactly where no pair of another name stands behind the first
pair of that name. -/
theorem set_in_place_iff (reached : Reachable (system dot) s) (here : s.listOf p = some list)
    (name value : Bytes) :
    SetsInPlace s p list name value ↔
      ∀ pair ∈ list.dropWhile fun pair => !decide (pair.1 = name), pair.1 = name := by
  obtain ⟨params, object, rfl⟩ := Option.map_eq_some_iff.mp here
  obtain ⟨t, went, _, later⟩ := mutate_owned (owned_reachable reached).2 object (.set name value)
  have listed : t.listOf p = some (without id name params.list ++ [(name, value)]) := by
    simp [Store.listOf, later, Mutation.apply, appendPair, removePairs_name]
  have moved := append_eq_replaceAll_iff (id : Bytes → Bytes) Function.injective_id name value
    params.list
  simp only [id_eq] at moved
  rw [← moved]
  constructor
  · rintro ⟨other, taken, same⟩
    have unique := Option.some.inj (went.symm.trans taken)
    subst unique
    rwa [listed, Option.some.injEq] at same
  · intro same
    exact ⟨t, went, by rw [listed, same]⟩

end Set

theorem set_in_place_example :
    ∃ s, Reachable (system anyByte) s ∧
      SetsInPlace s 0 [(text "b", text "1"), (text "a", text "2"), (text "a", text "3")] (text "a")
        (text "4") := by
  obtain ⟨history, s, run, checked⟩ := (system anyByte).exists_run rfl
    [.newUrl (text "http://h?b=1&a=2&a=3")]
    (fun _ s => s.listOf 0 == some [(text "b", text "1"), (text "a", text "2"),
      (text "a", text "3")]) (by decide +kernel)
  exact ⟨s, run.reachable, (set_in_place_iff run.reachable (beq_iff_eq.mp checked) _ _).mpr
    (by decide +kernel)⟩

theorem set_moves_pair : ¬ ∀ s p list, Reachable (system anyByte) s → s.listOf p = some list →
    ∀ name value, SetsInPlace s p list name value := by
  intro inPlace
  obtain ⟨history, s, run, checked⟩ := (system anyByte).exists_run rfl
    [.newUrl (text "http://h?a=1&b=2")]
    (fun _ s => s.listOf 0 == some [(text "a", text "1"), (text "b", text "2")] &&
      (s.set 0 (text "a") (text "3")).any fun t =>
        t.listOf 0 == some [(text "b", text "2"), (text "a", text "3")]) (by decide +kernel)
  simp only [Bool.and_eq_true, beq_iff_eq, Option.any_eq_true] at checked
  obtain ⟨here, later, went, after⟩ := checked
  obtain ⟨t, taken, listed⟩ := inPlace s 0 _ run.reachable here (text "a") (text "3")
  have same := Option.some.inj (went.symm.trans taken)
  subst same
  rw [after, Option.some.injEq] at listed
  revert listed
  decide +kernel

section Sorting

variable {dot : UInt8 → Bool} {s : Store} {p : Nat} {list : PairList}

structure StableSort (list later : PairList) : Prop where
  perm : later.Perm list
  sorted : later.Pairwise fun first second => first.1 ≤ second.1
  stable : ∀ name, URLSearchParams.getAll name later = URLSearchParams.getAll name list

def SortsStably (s : Store) (p : Nat) (list : PairList) : Prop :=
  ∀ outcome, sortsTo list outcome = true →
    ∃ t later, s.sort p outcome = some t ∧ t.listOf p = some later ∧ StableSort list later

theorem sortsTo_iff (list outcome : PairList) :
    sortsTo list outcome = true ↔
      outcome.Perm list ∧ outcome.Pairwise fun first second => first.1 ≤ second.1 := by
  rw [sortsTo, Bool.and_eq_true, List.isPerm_iff, decide_eq_true_iff, List.perm_comm]

theorem le_trans_names (a b c : Bytes) (first : decide (a ≤ b) = true)
    (second : decide (b ≤ c) = true) : decide (a ≤ c) = true := by
  rw [decide_eq_true_iff] at first second ⊢
  exact List.le_trans first second

theorem le_total_names (a b : Bytes) : (decide (a ≤ b) || decide (b ≤ a)) = true := by
  simpa using List.le_total a b

/-- The order of pairs of one name is safe exactly where it cannot be seen. -/
theorem sort_stable_iff (reached : Reachable (system dot) s) (here : s.listOf p = some list) :
    SortsStably s p list ↔
      ∀ first ∈ list, ∀ second ∈ list, first.1 = second.1 → first.2 = second.2 := by
  obtain ⟨params, object, rfl⟩ := Option.map_eq_some_iff.mp here
  have outcomes (outcome : PairList) :
      (∃ t later, s.sort p outcome = some t ∧ t.listOf p = some later ∧
        StableSort params.list later) ↔ StableSort params.list outcome := by
    obtain ⟨t, went, _, later⟩ := mutate_owned (owned_reachable reached).2 object (.sort outcome)
    have taken : s.sort p outcome = some t := went
    simp [taken, Store.listOf, later, Mutation.apply]
  have general := values_sorted_iff (id : Bytes → Bytes) (fun a b => decide (a ≤ b)) le_trans_names
    le_total_names params.list
  simp only [id_eq, decide_eq_true_eq, ← URLSearchParams.getAll_eq_values] at general
  rw [← general]
  simp only [SortsStably, outcomes, sortsTo_iff]
  constructor
  · intro stable outcome perm sorted
    exact (stable outcome ⟨perm, sorted⟩).stable
  · rintro stable outcome ⟨perm, sorted⟩
    exact ⟨perm, sorted, stable outcome perm sorted⟩

end Sorting

theorem sort_stable_example :
    ∃ s, Reachable (system anyByte) s ∧
      SortsStably s 0 [(text "b", text "1"), (text "a", text "2"), (text "a", text "2")] := by
  obtain ⟨history, s, run, checked⟩ := (system anyByte).exists_run rfl
    [.newUrl (text "http://h?b=1&a=2&a=2")]
    (fun _ s => s.listOf 0 == some [(text "b", text "1"), (text "a", text "2"),
      (text "a", text "2")]) (by decide +kernel)
  exact ⟨s, run.reachable, (sort_stable_iff run.reachable (beq_iff_eq.mp checked)).mpr
    (by decide +kernel)⟩

def lettered (order : List Nat) : PairList :=
  order.map fun i => (text "a", [UInt8.ofNat (97 + i)])

-- Sixteen pairs or fewer are left to an insertion sort in libstdc++; with one more it moves the
-- median of three to the front and exchanges the others around it.
def partitioned : List Nat :=
  [8, 16, 15, 14, 13, 12, 11, 10, 9, 0, 7, 6, 5, 4, 3, 2, 1]

theorem sort_may_swap : ¬ ∀ s p list, Reachable (system anyByte) s → s.listOf p = some list →
    SortsStably s p list := by
  intro stable
  obtain ⟨history, s, run, checked⟩ := (system anyByte).exists_run rfl
    [.newParams (lettered (List.range 17))]
    (fun _ s => s.listOf 0 == some (lettered (List.range 17)) &&
      (s.sort 0 (lettered partitioned)).any fun t =>
        t.listOf 0 == some (lettered partitioned)) (by decide +kernel)
  simp only [Bool.and_eq_true, beq_iff_eq, Option.any_eq_true] at checked
  obtain ⟨here, other, went, after⟩ := checked
  obtain ⟨t, later, taken, listed, sorted⟩ := stable s 0 _ run.reachable here
    (lettered partitioned) (by decide +kernel)
  have same := Option.some.inj (went.symm.trans taken)
  subst same
  rw [after, Option.some.injEq] at listed
  have outcome := sorted.stable (text "a")
  rw [← listed] at outcome
  revert outcome
  decide +kernel

end BreezeJs.UrlStore
