import Mathlib.Data.List.Induction
import BreezeJs.Binding.NamespaceTree

set_option autoImplicit false

namespace BreezeJs.ModuleExports

open Infra Binding Prefixes

section Entries

variable {prop other : Atom} {value : JsValue}

theorem lookup_set (entries : List (Atom × JsValue)) (prop other : Atom) (value : JsValue) :
    (entries.map fun entry => if entry.1 = prop then (prop, value) else entry).lookup other =
      if other = prop then (entries.lookup other).map fun _ => value else entries.lookup other := by
  induction entries with
  | nil => simp
  | cons entry entries ih =>
      have key : (if entry.1 = prop then (prop, value) else entry).1 = entry.1 := by
        split_ifs with here
        · exact here.symm
        · rfl
      rw [List.map_cons, List.lookup_cons, List.lookup_cons, ih, key]
      by_cases same : other = entry.1
      · subst same
        rw [beq_self_eq_true]
        by_cases here : entry.1 = prop <;> simp [here]
      · rw [beq_false_of_ne same]

theorem lookup_append (entries : List (Atom × JsValue)) (prop other : Atom) (value : JsValue) :
    ((entries ++ [(prop, value)]).lookup other).isSome =
      ((entries.lookup other).isSome || other == prop) := by
  induction entries with
  | nil => cases same : other == prop <;> simp [List.lookup_cons, same]
  | cons entry entries ih =>
      rw [List.cons_append, List.lookup_cons, List.lookup_cons]
      cases same : other == entry.1 with
      | true => rfl
      | false => exact ih

theorem lookup_any (entries : List (Atom × JsValue)) (prop : Atom) :
    (entries.any fun entry => entry.1 == prop) = (entries.lookup prop).isSome := by
  induction entries with
  | nil => rfl
  | cons entry entries ih =>
      rw [List.any_cons, List.lookup_cons, ih, Bool.beq_comm]
      cases same : prop == entry.1 <;> rfl

end Entries

section Resolution

variable {engine : Engine} {start s : State} {exports done : List Export}
  {place : List Bytes → Node} {made : List (List Bytes)} {state : State × Module} {e : Export}

def firsts (exports : List Export) : List Atom :=
  exports.map fun e => nameOf (beforeColons e.1)

theorem mem_done_of_shorter {later : List Export} {e' : Export}
    (sorted : SortsTo exports (done ++ e :: later)) (listed : e' ∈ exports)
    (shorter : e'.1.length < e.1.length) : e' ∈ done := by
  have order := (List.pairwise_append.mp sorted.2).2.1
  rcases List.mem_append.mp (sorted.1.mem_iff.mp listed) with before | after
  · exact before
  · rcases List.mem_cons.mp after with rfl | behind
    · exact absurd shorter (Nat.lt_irrefl _)
    · exact absurd shorter (Nat.not_lt.mpr ((List.pairwise_cons.mp order).1 e' behind))

theorem root_link (member : e ∈ exports) (named : e.1 ≠ []) :
    ([], beforeColons e.1) ∈ allLinks exports := by
  obtain ⟨rest, split⟩ := pathOf_first named
  exact List.mem_flatMap.mpr ⟨e, member, split ▸ List.mem_cons_self⟩

structure Added (start : State) (exports added : List Export) (state : State × Module) : Prop where
  atoms : Interned start.atoms ((allLinks exports).map Prod.snd) state.1.atoms
  heap : state.1.heap = start.heap
  exports : state.2.exports = added
  entries : ∀ prop, (state.2.entries.lookup prop).isSome = true ↔ prop ∈ firsts added

theorem added_add {added : List Export}
    (clean : Clean start.atoms ((allLinks exports).map Prod.snd)) (member : e ∈ exports)
    (named : e.1 ≠ []) (sofar : Added start exports added state) :
    Added start exports (added ++ [e]) (add state e) := by
  obtain ⟨atoms, read, interned⟩ :=
    sofar.atoms.named clean (List.mem_map_of_mem (root_link member named))
  have entries : (add state e).2.entries =
      if (state.2.entries.lookup (nameOf (beforeColons e.1))).isSome = true then state.2.entries
      else state.2.entries ++ [(nameOf (beforeColons e.1), .undefined)] := by
    rw [add, addModuleExport, read]
    simp only [lookup_any]
    split_ifs <;> rfl
  rw [add, addModuleExport, read] at entries ⊢
  refine ⟨interned, sofar.heap, ?_, ?_⟩
  · simp only
    split_ifs <;> simp [sofar.exports]
  · intro prop
    rw [entries, firsts, List.map_append, List.mem_append, ← firsts, ← sofar.entries]
    split_ifs with there
    · constructor
      · exact .inl
      · rintro (earlier | last)
        · exact earlier
        · exact List.mem_singleton.mp last ▸ there
    · rw [lookup_append, Bool.or_eq_true, beq_iff_eq, List.map_singleton, List.mem_singleton]

theorem added_all (clean : Clean start.atoms ((allLinks exports).map Prod.snd))
    (named : ∀ e ∈ exports, e.1 ≠ []) {added : List Export} (listed : ∀ e ∈ added, e ∈ exports) :
    Added start exports added (added.foldl add (start, ⟨[], []⟩)) := by
  induction added using List.reverseRecOn with
  | nil =>
      exact ⟨.refl _ _, rfl, rfl, fun prop => by simp [firsts]⟩
  | append_singleton added e ih =>
      rw [List.foldl_append]
      have member := listed e (List.mem_append_right _ (List.mem_singleton_self e))
      exact added_add clean member (named e member)
        (ih fun e earlier => listed e (List.mem_append_left _ earlier))

structure Entered (engine : Engine) (start : State) (exports : List Export)
    (place : List Bytes → Node) (made : List (List Bytes)) (done : List Export)
    (state : State × Module) : Prop where
  grown : Grown engine start exports place made (allLinks done) state.1
  root : made[0]? = some []
  shown : ∀ e ∈ done, state.2.entries.lookup (nameOf (beforeColons e.1)) =
    some ((place [beforeColons e.1]).toValue start made)
  entries : ∀ prop, (state.2.entries.lookup prop).isSome = true ↔ prop ∈ firsts exports

variable (allowed : Allowed engine start exports) (clear : Clear engine start exports place)

include clear

theorem Entered.exportObj (entered : Entered engine start exports place made done state) :
    (place []).toValue start made = .object start.heap.length := by
  have first : made.idxOf [] = 0 := by
    cases made with
    | nil => cases entered.root
    | cons p rest =>
        cases entered.root
        exact List.idxOf_cons_self
  rw [clear.root, Node.toValue, first, Nat.add_zero]

theorem Entered.present (entered : Entered engine start exports place made done state) :
    (place []).Present made := by
  intro path here
  rw [clear.root, Node.made.injEq] at here
  exact here ▸ List.mem_of_getElem? entered.root

include allowed

theorem first_place {e' : Export} (member : e ∈ exports) (member' : e' ∈ exports)
    (same : nameOf (beforeColons e'.1) = nameOf (beforeColons e.1)) :
    place [beforeColons e'.1] = place [beforeColons e.1] :=
  clear.same _ (root_link member' (allowed.named e' member')) _
    (root_link member (allowed.named e member)) ⟨rfl, same⟩

theorem Entered.shown_set (entered : Entered engine start exports place made done state)
    (member : e ∈ exports) (earlier : ∀ e ∈ done, e ∈ exports) (more : List (List Bytes)) :
    ∀ e' ∈ done ++ [e], (state.2.entries.map fun entry =>
        if entry.1 = nameOf (beforeColons e.1) then
          (nameOf (beforeColons e.1), (place [beforeColons e.1]).toValue start (made ++ more))
        else entry).lookup (nameOf (beforeColons e'.1)) =
      some ((place [beforeColons e'.1]).toValue start (made ++ more)) := by
  intro e' listed
  rw [lookup_set]
  split_ifs with same
  · have entry := (entered.entries (nameOf (beforeColons e'.1))).mpr
      (same ▸ List.mem_map_of_mem member)
    obtain ⟨w, found⟩ := Option.isSome_iff_exists.mp entry
    have member' : e' ∈ exports := by
      rcases List.mem_append.mp listed with before | last
      · exact earlier e' before
      · exact List.mem_singleton.mp last ▸ member
    rw [found, first_place allowed clear member member' same]
    rfl
  · have before : e' ∈ done := by
      rcases List.mem_append.mp listed with before | last
      · exact before
      · exact absurd (List.mem_singleton.mp last ▸ rfl) same
    have present : (place [beforeColons e'.1]).Present made :=
      entered.grown.reached _ (root_link before (allowed.named e' (earlier e' before)))
    rw [entered.shown e' before, Node.toValue_append present]

theorem Entered.export (entered : Entered engine start exports place made done state)
    (member : e ∈ exports) (earlier : ∀ e ∈ done, e ∈ exports)
    (passes : Passes engine start place (allLinks done) [] (pathOf e.1)) :
    ∃ more, Entered engine start exports place (made ++ more) (done ++ [e])
      (initExport engine (.object start.heap.length) state e) := by
  obtain ⟨rest, split⟩ := pathOf_first (allowed.named e member)
  have known : ∀ l ∈ links [] (pathOf e.1), l ∈ allLinks exports :=
    fun l listed => List.mem_flatMap.mpr ⟨e, member, listed⟩
  obtain ⟨more, grown⟩ := setKeyRecursive_grown allowed clear entered.grown
    (entered.present clear) (split ▸ List.cons_ne_nil _ _) known (clear.exported e member)
    ⟨e, member, rfl⟩ passes
  have all : allLinks (done ++ [e]) = allLinks done ++ links [] (pathOf e.1) := by
    simp [allLinks]
  rw [entered.exportObj clear, ← all] at grown
  have root : ([], beforeColons e.1) ∈ allLinks (done ++ [e]) :=
    root_link (List.mem_append_right _ (List.mem_singleton_self e)) (allowed.named e member)
  obtain ⟨atoms, laid, read⟩ :=
    grown.toLaid.read allowed clear (grown.known _ root) root ⟨rfl, rfl⟩
  obtain ⟨atoms', named, interned⟩ :=
    laid.atoms.named clear.clean (List.mem_map_of_mem (grown.known _ root))
  rw [Node.toValue_append (entered.present clear), entered.exportObj clear] at read
  refine ⟨more, ?_⟩
  rw [initExport, split]
  rw [split] at read grown laid
  simp only [read, setModuleExport, named]
  refine ⟨{ laid with atoms := interned, purpose := grown.purpose }, ?_, ?_, ?_⟩
  · obtain ⟨inside, _⟩ := List.getElem?_eq_some_iff.mp entered.root
    exact (List.getElem?_append_left inside).trans entered.root
  · exact entered.shown_set allowed clear member earlier more
  · intro prop
    rw [lookup_set, ← entered.entries prop]
    split_ifs
    · rw [Option.isSome_map]
    · rfl

theorem passes_of_sorted {later : List Export} (sorted : SortsTo exports (done ++ e :: later)) :
    Passes engine start place (allLinks done) [] (pathOf e.1) := by
  intro front key more split some free
  rw [List.nil_append] at free ⊢
  refine clear.finds done e later sorted front key more split some ?_ free
  intro e' listed path
  have further : pathOf e.1 = pathOf e'.1 ++ more := by
    rw [path, split, List.append_assoc, List.singleton_append]
  have before := mem_done_of_shorter sorted listed
    (length_lt_of_proper (allowed.named e' listed) some further)
  have shown : (front, key) ∈ allLinks done :=
    List.mem_flatMap.mpr ⟨e', before, path ▸ last_link [] front key⟩
  exact free _ (List.mem_append_left _ shown) ⟨rfl, rfl⟩

theorem entered_all {later : List Export}
    (entered : Entered engine start exports place made done state)
    (sorted : SortsTo exports (done ++ later)) :
    ∃ made', Entered engine start exports place made' (done ++ later)
      (later.foldl (initExport engine (.object start.heap.length)) state) := by
  induction later generalizing made done state with
  | nil => exact ⟨made, by rwa [List.append_nil]⟩
  | cons e later ih =>
      have member : e ∈ exports :=
        sorted.1.mem_iff.mpr (List.mem_append_right _ List.mem_cons_self)
      have earlier : ∀ e ∈ done, e ∈ exports :=
        fun e listed => sorted.1.mem_iff.mpr (List.mem_append_left _ listed)
      obtain ⟨more, next⟩ := entered.export allowed clear member earlier
        (passes_of_sorted allowed clear sorted)
      have regroup : done ++ e :: later = done ++ [e] ++ later := by simp
      rw [regroup] at sorted ⊢
      exact ih next sorted

theorem entered_start {added : List Export} (ready : Added start exports added state)
    (all : exports.Perm added) (sorted : List Export) :
    Entered engine start exports place [[]] []
      ((state.1.alloc engine).2, { state.2 with exports := sorted }) := by
  have laid : Laid engine start exports place [] [] state.1 :=
    { atoms := ready.atoms
      known := by simp
      distinct := List.nodup_nil
      source := by simp
      reached := by simp
      size := by rw [ready.heap]; rfl
      objects := by
        intro r obj here
        refine ⟨obj, ?_, .refl obj⟩
        rw [ready.heap]
        simpa [base] using here }
  refine ⟨⟨(laid.alloc allowed clear List.not_mem_nil).1, ?_⟩, rfl, by simp, ?_⟩
  · intro p member
    exact .inl (List.mem_singleton.mp member)
  · intro prop
    rw [ready.entries, firsts, firsts]
    exact (all.map _).mem_iff.symm

theorem outcome_entered {final : State × Module} (outcome : Outcome engine start exports final) :
    ∃ made sorted, exports.Perm sorted ∧
      Entered engine start exports place made sorted final := by
  obtain ⟨added, sorted, all, ⟨same, order⟩, rfl⟩ := outcome
  have ready := added_all clear.clean allowed.named fun e listed => all.mem_iff.mpr listed
  have all' := all.trans (ready.exports ▸ same)
  have entering : initModule engine (added.foldl add (start, ⟨[], []⟩)) sorted =
      sorted.foldl (initExport engine (.object start.heap.length))
        (((added.foldl add (start, ⟨[], []⟩)).1.alloc engine).2,
          { (added.foldl add (start, ⟨[], []⟩)).2 with exports := sorted }) := by
    simp only [initModule, State.alloc, ready.heap]
  obtain ⟨made, entered⟩ := entered_all allowed clear
    (entered_start allowed clear ready all sorted) ⟨all', order⟩
  rw [entering]
  exact ⟨made, sorted, all', entered⟩

theorem walk_rest (laid : Laid engine start exports place made (allLinks done) s)
    {path rest : List Bytes} (listed : ∀ l ∈ links path rest, l ∈ allLinks done) :
    rest.foldl (fun value key => (getPropertyStr engine s value key).1)
      ((place path).toValue start made) = (place (path ++ rest)).toValue start made := by
  induction rest generalizing path with
  | nil => rw [List.append_nil, List.foldl_nil]
  | cons key rest ih =>
      have first := listed (path, key) List.mem_cons_self
      obtain ⟨atoms, _, read⟩ := laid.read allowed clear (laid.known _ first) first ⟨rfl, rfl⟩
      rw [List.foldl_cons, read, target,
        ih fun l later => listed l (List.mem_cons_of_mem _ later), List.append_assoc,
        List.singleton_append]

theorem Entered.walk (entered : Entered engine start exports place made done state)
    (member : e ∈ done) (known : e ∈ exports) :
    walk engine state (pathOf e.1) = some e.2 := by
  have named := allowed.named e known
  obtain ⟨rest, split⟩ := pathOf_first named
  have listed : ∀ l ∈ links [] (pathOf e.1), l ∈ allLinks done :=
    fun l listed => List.mem_flatMap.mpr ⟨e, member, listed⟩
  obtain ⟨atoms, read, _⟩ := entered.grown.atoms.named clear.clean
    (List.mem_map_of_mem (root_link known named))
  rw [split] at listed
  have reached := walk_rest allowed clear entered.grown.toLaid
    fun l later => listed l (List.mem_cons_of_mem _ later)
  rw [split, ModuleExports.walk, exportOf, read]
  simp only
  rw [entered.shown e member, Option.map_some]
  have value : (place (beforeColons e.1 :: rest)).toValue start made = e.2 := by
    rw [← split, clear.exported e known, Node.toValue]
  exact congrArg some (reached.trans value)

section Renaming

variable {made' : List (List Bytes)} {done' : List Export} {state' : State × Module}

def relocate (size : Nat) (made made' : List (List Bytes)) (r : Nat) : Nat :=
  if r < size then r else size + reindex made made' (r - size)

omit allowed clear in
theorem relocate_old {size r : Nat} (old : r < size) : relocate size made made' r = r :=
  if_pos old

omit allowed clear in
theorem relocate_made (size i : Nat) :
    relocate size made made' (size + i) = size + reindex made made' i := by
  rw [relocate, if_neg (by omega), Nat.add_sub_cancel_left]

omit allowed clear in
theorem relocate_relocate (distinct : made.Nodup) (same : made.Perm made') (size r : Nat) :
    relocate size made' made (relocate size made made' r) = r := by
  by_cases old : r < size
  · rw [relocate_old old, relocate_old old]
  · obtain ⟨i, rfl⟩ := Nat.exists_eq_add_of_le (Nat.le_of_not_lt old)
    rw [relocate_made, relocate_made, reindex_reindex distinct same]

omit allowed clear in
theorem rename_inside {size : Nat} {v : JsValue} (inside : v.Inside size) :
    v.rename (relocate size made made') = v := by
  cases v with
  | object r => exact congrArg JsValue.object (relocate_old (inside r rfl))
  | undefined => rfl
  | other n => rfl

omit allowed clear in
theorem rename_object {size : Nat} {v : JsValue} {r : Nat} (distinct : made.Nodup)
    (same : made.Perm made')
    (here : v.rename (relocate size made made') = .object (relocate size made made' r)) :
    v = .object r := by
  cases v with
  | object r' =>
      have places := JsValue.object.inj here
      rw [← relocate_relocate distinct same size r', places, relocate_relocate distinct same]
  | undefined => cases here
  | other n => cases here

omit allowed in
theorem source_inside {link : Link Bytes} (known : link ∈ allLinks exports) {v : JsValue}
    (value : place link.1 = .value v) : v.Inside start.heap.length := by
  rintro r rfl
  exact Node.old_lt (clear.objects link known) value

theorem reached_inside {link : Link Bytes} (known : link ∈ allLinks exports) {v : JsValue}
    (value : place (target link) = .value v) : v.Inside start.heap.length := by
  obtain ⟨e, member, listed⟩ := List.mem_flatMap.mp known
  obtain ⟨front, rest, split, led⟩ := mem_links.mp listed
  have path : pathOf e.1 = target link ++ rest := by
    rw [split, target, led, List.nil_append, List.append_assoc, List.singleton_append]
  cases rest with
  | nil =>
      rw [List.append_nil] at path
      rw [← path, clear.exported e member, Node.value.injEq] at value
      exact value ▸ allowed.values e member
  | cons next rest =>
      have further : (target link, next) ∈ allLinks exports :=
        List.mem_flatMap.mpr ⟨e, member, mem_links.mpr ⟨target link, rest, path, rfl⟩⟩
      exact source_inside clear further value

omit allowed clear in
theorem toValue_relocate {node : Node} (present : node.Present made)
    (inside : ∀ v, node = .value v → v.Inside start.heap.length) :
    (node.toValue start made).rename (relocate start.heap.length made made') =
      node.toValue start made' := by
  cases node with
  | value v => exact rename_inside (inside v rfl)
  | made path =>
      rw [Node.toValue, Node.toValue, JsValue.rename, relocate_made,
        reindex_idxOf (present path rfl)]

omit allowed clear in
theorem made_perm (first : Entered engine start exports place made done state)
    (second : Entered engine start exports place made' done' state')
    (same : ∀ l, l ∈ allLinks done ↔ l ∈ allLinks done') : made.Perm made' := by
  have inside {m m' : List (List Bytes)} {d d' : List Export} {t t' : State × Module}
      (one : Entered engine start exports place m d t)
      (other : Entered engine start exports place m' d' t')
      (links : ∀ l, l ∈ allLinks d → l ∈ allLinks d') (p : List Bytes) (member : p ∈ m) :
      p ∈ m' := by
    rcases one.grown.purpose p member with rfl | ⟨l, listed, led⟩
    · exact List.mem_of_getElem? other.root
    · exact other.grown.reached l (links l listed) p led
  rw [List.perm_ext_iff_of_nodup first.grown.distinct second.grown.distinct]
  exact fun p => ⟨inside first second (fun l => (same l).mp) p,
    inside second first (fun l => (same l).mpr) p⟩

omit clear in
theorem base_relocate (perm : made.Perm made') {r : Nat} {obj : Object}
    (here : base engine start made r = some obj) :
    base engine start made' (relocate start.heap.length made made' r) = some obj ∧
      obj.Inside start.heap.length := by
  by_cases old : r < start.heap.length
  · rw [relocate_old old, base_old old]
    rw [base_old old] at here
    exact ⟨here, allowed.heap obj (List.mem_of_getElem? here)⟩
  · obtain ⟨i, rfl⟩ := Nat.exists_eq_add_of_le (Nat.le_of_not_lt old)
    have bound := base_lt here
    have inside : i < made.length := by omega
    rw [base_made inside] at here
    cases here
    rw [relocate_made, base_made (reindex_lt perm inside)]
    refine ⟨rfl, ⟨?_, ?_⟩⟩
    · intro prop value writable own
      cases own
    · intro r member
      exact List.mem_singleton.mp member ▸ allowed.prototype

omit allowed clear in
theorem Object.Inside.renamed {size : Nat} {obj : Object} (inside : obj.Inside size) (prop : Atom) :
    (obj.own prop).map (Property.rename (relocate size made made')) = obj.own prop ∧
      obj.prototypes.map (relocate size made made') = obj.prototypes := by
  constructor
  · cases own : obj.own prop with
    | none => rfl
    | some property =>
        cases property with
        | special => rfl
        | data value writable =>
            rw [Option.map_some, Property.rename,
              ModuleExports.rename_inside (inside.values prop value writable own)]
  · exact List.map_congr_left (fun r member => relocate_old (inside.prototypes r member)) |>.trans
      (List.map_id _)

omit allowed in
theorem starts_relocate (first : Laid engine start exports place made (allLinks done) state.1)
    (perm : made.Perm made') {l : Link Bytes} (listed : l ∈ allLinks done) (r : Nat) :
    Starts start place made l r ↔
      Starts start place made' l (relocate start.heap.length made made' r) := by
  have moved : ((place l.1).toValue start made).rename (relocate start.heap.length made made') =
      (place l.1).toValue start made' :=
    toValue_relocate (first.source l listed) fun v => source_inside clear (first.known l listed)
  constructor
  · intro begins
    rw [Starts] at begins ⊢
    rw [← moved, begins]
    rfl
  · intro begins
    exact rename_object first.distinct perm (moved.trans begins)

theorem own_relocate (first : Laid engine start exports place made (allLinks done) state.1)
    (perm : made.Perm made') (same : ∀ l, l ∈ allLinks done ↔ l ∈ allLinks done') {r : Nat}
    {obj one other : Object} (inside : obj.Inside start.heap.length)
    (overlaid : Overlaid start place made (allLinks done) r obj one)
    (overlaid' : Overlaid start place made' (allLinks done')
      (relocate start.heap.length made made' r) obj other) (prop : Atom) :
    other.own prop =
      (one.own prop).map (Property.rename (relocate start.heap.length made made')) := by
  by_cases slot : ∃ l ∈ allLinks done, Starts start place made l r ∧ nameOf l.2 = prop
  · obtain ⟨l, listed, begins, rfl⟩ := slot
    have begins' := (starts_relocate clear first perm listed r).mp begins
    rw [overlaid.slot l listed begins, overlaid'.slot l ((same l).mp listed) begins',
      Option.map_some, Property.rename, toValue_relocate (first.reached l listed) fun v =>
        reached_inside allowed clear (first.known l listed)]
  · have absent : ∀ l ∈ allLinks done, Starts start place made l r → nameOf l.2 ≠ prop :=
      fun l listed begins named => slot ⟨l, listed, begins, named⟩
    rw [overlaid.rest prop absent, overlaid'.rest prop, (inside.renamed prop).1]
    intro l listed begins
    have listed' := (same l).mpr listed
    exact absent l listed' ((starts_relocate clear first perm listed' r).mpr begins)

omit allowed in
theorem length_relocate (first : Laid engine start exports place made (allLinks done) state.1)
    (perm : made.Perm made') (same : ∀ l, l ∈ allLinks done ↔ l ∈ allLinks done') {r : Nat}
    {obj one other : Object} (overlaid : Overlaid start place made (allLinks done) r obj one)
    (overlaid' : Overlaid start place made' (allLinks done')
      (relocate start.heap.length made made' r) obj other) : other.length = one.length := by
  have elements (i : Nat) : Elements start place made' (allLinks done')
      (relocate start.heap.length made made' r) obj i ↔
        Elements start place made (allLinks done) r obj i := by
    refine exists_congr fun l => ⟨?_, ?_⟩
    · rintro ⟨listed, begins, element⟩
      have listed' := (same l).mpr listed
      exact ⟨listed', (starts_relocate clear first perm listed' r).mpr begins, element⟩
    · rintro ⟨listed, begins, element⟩
      exact ⟨(same l).mp listed, (starts_relocate clear first perm listed r).mp begins, element⟩
  have covered := overlaid.length
  have covered' := rel_congr overlaid'.length elements
  generalize obj.length = base at covered covered'
  generalize one.length = length at covered ⊢
  generalize other.length = length' at covered' ⊢
  cases covered with
  | none =>
      cases covered'
      rfl
  | some covers =>
      cases covered' with
      | some covers' => exact congrArg some (covers.unique covers')

theorem object_relocate (first : Laid engine start exports place made (allLinks done) state.1)
    (second : Laid engine start exports place made' (allLinks done') state'.1)
    (perm : made.Perm made') (same : ∀ l, l ∈ allLinks done ↔ l ∈ allLinks done') (r : Nat) :
    state'.1.heap[relocate start.heap.length made made' r]? =
      state.1.heap[r]?.map (Object.rename (relocate start.heap.length made made')) := by
  cases here : base engine start made r with
  | none =>
      have outside : start.heap.length + made.length ≤ r := by
        simpa [base] using List.getElem?_eq_none_iff.mp here
      obtain ⟨i, rfl⟩ := Nat.exists_eq_add_of_le (Nat.le_of_add_right_le outside)
      have length := perm.length_eq
      have past : state.1.heap.length ≤ start.heap.length + i := first.size ▸ outside
      have past' : state'.1.heap.length ≤ start.heap.length + i := second.size ▸ length ▸ outside
      rw [relocate_made, reindex_outside (by omega), List.getElem?_eq_none past',
        List.getElem?_eq_none past, Option.map_none]
  | some obj =>
      obtain ⟨here', inside⟩ := base_relocate allowed perm here
      obtain ⟨one, found, overlaid⟩ := first.objects r obj here
      obtain ⟨other, found', overlaid'⟩ := second.objects _ obj here'
      rw [found, found', Option.map_some, Option.some.injEq]
      have own := own_relocate allowed clear first perm same inside overlaid overlaid'
      have length := length_relocate clear first perm same overlaid overlaid'
      refine Object.ext (funext own) (overlaid'.exotic.trans overlaid.exotic.symm) length ?_
        (overlaid'.extensible.trans overlaid.extensible.symm)
      rw [overlaid'.prototypes, Object.rename, overlaid.prototypes]
      exact (inside.renamed (.int 0)).2.symm

theorem entries_relocate (first : Entered engine start exports place made done state)
    (second : Entered engine start exports place made' done' state') (all : exports.Perm done)
    (all' : exports.Perm done') (prop : Atom) :
    state'.2.entries.lookup prop = (state.2.entries.lookup prop).map
      (JsValue.rename (relocate start.heap.length made made')) := by
  by_cases listed : prop ∈ firsts exports
  · obtain ⟨e, member, rfl⟩ := List.mem_map.mp listed
    have done := all.mem_iff.mp member
    have root := root_link done (allowed.named e member)
    have moved : ((place [beforeColons e.1]).toValue start made).rename
        (relocate start.heap.length made made') = (place [beforeColons e.1]).toValue start made' :=
      toValue_relocate (first.grown.reached _ root) fun v =>
        reached_inside allowed clear (first.grown.known _ root)
    rw [first.shown e done, second.shown e (all'.mem_iff.mp member), Option.map_some, moved]
  · have none := (first.entries prop).not.mpr listed
    have none' := (second.entries prop).not.mpr listed
    rw [Bool.not_eq_true, Option.isSome_eq_false_iff, Option.isNone_iff_eq_none] at none none'
    rw [none, none', Option.map_none]

end Renaming

end Resolution

/-- Exports without conflicts resolve in every order, to the same tree. -/
theorem exports_resolve (engine : Engine) (start : State) (exports : List Export)
    (place : List Bytes → Node) (allowed : Allowed engine start exports)
    (clear : Clear engine start exports place) : Resolves engine start exports := by
  intro first outcome
  obtain ⟨made, done, all, entered⟩ := outcome_entered allowed clear outcome
  constructor
  · intro e member
    exact entered.walk allowed clear (all.mem_iff.mp member) member
  · intro second outcome'
    obtain ⟨made', done', all', entered'⟩ := outcome_entered allowed clear outcome'
    have same (l : Link Bytes) : l ∈ allLinks done ↔ l ∈ allLinks done' :=
      ((all.symm.trans all').flatMap_right _).mem_iff
    have perm := made_perm entered entered' same
    let place : Equiv.Perm Nat :=
      { toFun := relocate start.heap.length made made'
        invFun := relocate start.heap.length made' made
        left_inv := relocate_relocate entered.grown.distinct perm _
        right_inv := relocate_relocate entered'.grown.distinct perm.symm _ }
    refine ⟨place, ?_, ?_, ?_⟩
    · exact fun r old => relocate_old old
    · exact object_relocate allowed clear entered.grown.toLaid entered'.grown.toLaid perm same
    · exact entries_relocate allowed clear entered entered' all all'

section Lengths

variable {engine : Engine} {start : State} {exports : List Export} {place : List Bytes → Node}

theorem blank_of_lookup {heap : List Object} {shows : Nat → Node → Prop} {prop : Atom}
    {chain : List Nat} (reads : lookup heap prop chain = some .undefined)
    (untouched : ∀ r ∈ chain, ∀ node, ¬ shows r node) : Blank heap shows prop chain := by
  induction chain with
  | nil => exact .nil
  | cons r chain ih =>
      have first := untouched r List.mem_cons_self
      rw [lookup] at reads
      cases here : heap[r]? with
      | none => simp [here] at reads
      | some obj =>
          simp only [here] at reads
          cases own : obj.own prop with
          | none =>
              rw [own, Option.ite_none_left_eq_some] at reads
              exact .behind first here own (eq_false_of_ne_true reads.1)
                (ih reads.2 fun r member => untouched r (List.mem_cons_of_mem _ member))
          | some property =>
              cases property with
              | special => simp [own] at reads
              | data value writable =>
                  simp only [own, Option.some.injEq] at reads
                  exact .own first here (reads ▸ own)

theorem finds_of_lengths
    (ready : ∀ e ∈ exports, ∀ link ∈ links [] (pathOf e.1),
      (∀ e' ∈ exports, pathOf e'.1 ≠ target link) →
      (∃ e' ∈ exports, e'.1.length < e.1.length ∧
        ∃ other ∈ links [] (pathOf e'.1), SameSlot place other link) ∨
      (place (target link) matches .made _) ∧
        ∀ obj ∈ (place link.1).object engine start.heap,
          readable start.heap obj (nameOf link.2) = some .undefined ∧
          ∀ e' ∈ exports, e'.1.length ≤ e.1.length → ∀ other ∈ links [] (pathOf e'.1),
            ∀ r ∈ obj.prototypes, place other.1 = .value (.object r) →
              nameOf other.2 ≠ nameOf link.2)
    (done : List Export) (e : Export) (later : List Export)
    (sorted : SortsTo exports (done ++ e :: later)) (front : List Bytes) (key : Bytes)
    (more : List Bytes) (split : pathOf e.1 = front ++ key :: more)
    (unexported : ∀ e' ∈ exports, pathOf e'.1 ≠ front ++ [key])
    (free : ∀ link ∈ allLinks done ++ links [] front, ¬ SameSlot place link (front, key))
    (obj : Object) (here : obj ∈ (place front).object engine start.heap) :
    Finds start place (allLinks done ++ links [] front) (front, key) obj := by
  have listed {e' : Export} (member : e' ∈ done ++ e :: later) : e' ∈ exports :=
    sorted.1.mem_iff.mpr member
  have order := List.pairwise_append.mp sorted.2
  have inPath : (front, key) ∈ links [] (pathOf e.1) := mem_links.mpr ⟨front, more, split, rfl⟩
  rcases ready e (listed (List.mem_append_right _ List.mem_cons_self)) _ inPath unexported with
    ⟨e', member, shorter, other, there, slot⟩ | ⟨new, finds⟩
  · have before := mem_done_of_shorter sorted member shorter
    exact absurd slot (free other
      (List.mem_append_left _ (List.mem_flatMap.mpr ⟨e', before, there⟩)))
  · obtain ⟨reads, apart⟩ := finds obj here
    have earlier {other : Link Bytes} (member : other ∈ allLinks done ++ links [] front) :
        ∃ e' ∈ exports, e'.1.length ≤ e.1.length ∧ other ∈ links [] (pathOf e'.1) := by
      rcases List.mem_append.mp member with before | before
      · obtain ⟨e', inside, there⟩ := List.mem_flatMap.mp before
        exact ⟨e', listed (List.mem_append_left _ inside),
          order.2.2 e' inside e List.mem_cons_self, there⟩
      · obtain ⟨first, rest, whole, led⟩ := mem_links.mp before
        refine ⟨e, listed (List.mem_append_right _ List.mem_cons_self), Nat.le_refl _, ?_⟩
        refine mem_links.mpr ⟨first, rest ++ key :: more, ?_, led⟩
        rw [split, whole, List.append_assoc, List.cons_append]
    have untouched : ∀ r ∈ obj.prototypes, ∀ node,
        ¬ Shows place (allLinks done ++ links [] front) (nameOf key) r node := by
      rintro r chained node ⟨other, member, begins, named, _⟩
      obtain ⟨e', inside, shorter, there⟩ := earlier member
      exact apart e' inside shorter other there r chained begins named
    rw [Finds]
    cases node : place (target (front, key)) with
    | value v => simp [node] at new
    | made path =>
        rw [readable] at reads
        cases own : obj.own (nameOf key) with
        | none =>
            rw [own, Option.ite_none_left_eq_some] at reads
            exact .inr ⟨rfl, eq_false_of_ne_true reads.1, blank_of_lookup reads.2 untouched⟩
        | some property =>
            cases property with
            | special => simp [own] at reads
            | data value writable =>
                simp only [own, Option.some.injEq] at reads
                exact .inl ⟨writable, reads ▸ rfl⟩

end Lengths

def smallHeap : List Object :=
  [⟨fun prop =>
      if prop = nameOf (text "toString") then some (.data (.object 1) true) else none,
    fun _ => false, none, [], true⟩,
   ⟨fun _ => none, fun _ => false, none, [0], true⟩]

-- Values without properties throw.
def smallEngine : Engine where
  objectPrototype := 0
  getOther s _ _ := (.other 0, s)
  setOther s _ _ _ := s

theorem empty_inside {size : Nat} {exotic : Atom → Bool} {length : Option ArrayLength}
    {prototypes : List Nat} {extensible : Bool} (inside : ∀ r ∈ prototypes, r < size) :
    Object.Inside size ⟨fun _ => none, exotic, length, prototypes, extensible⟩ where
  values _ _ _ own := by cases own
  prototypes := inside

theorem smallHeap_inside {size : Nat} (enough : 2 ≤ size) :
    ∀ obj ∈ smallHeap, obj.Inside size := by
  rw [smallHeap, List.forall_mem_cons, List.forall_mem_singleton]
  refine ⟨⟨?_, by simp⟩, empty_inside (List.forall_mem_singleton.mpr (by omega))⟩
  intro prop value writable own
  dsimp only at own
  split_ifs at own
  cases own
  intro r same
  cases same
  omega

def largerHeap : List Object :=
  smallHeap ++
    [⟨fun _ => none, fun _ => false, none, [0], true⟩,
     ⟨fun _ => none, fun _ => false, none, [2, 0], true⟩,
     ⟨fun _ => none, fun _ => false, some ⟨0, true⟩, [0], true⟩]

def largerExports : List Export :=
  [(text "Prototype", .object 2), (text "Prototype::x", .other 1),
   (text "O", .object 3), (text "O::x::y", .other 2),
   (text "A", .object 1), (text "A::x::y", .other 3),
   (text "B", .object 1), (text "B::x::z", .other 4),
   (text "L", .object 4), (text "L::0", .other 5)]

-- One object is exported as `A` and as `B`.
def largerPlace (path : List Bytes) : Node :=
  if path = [text "B", text "x"] then .made [text "A", text "x"]
  else nodeAt largerExports path

theorem largerHeap_inside : ∀ obj ∈ largerHeap, obj.Inside largerHeap.length := by
  rw [largerHeap, List.forall_mem_append]
  refine ⟨smallHeap_inside (by decide), ?_⟩
  simp only [List.forall_mem_cons]
  exact ⟨empty_inside (by decide), empty_inside (by decide), empty_inside (by decide), by simp⟩

theorem exports_resolve_example :
    Resolves smallEngine ⟨[], largerHeap⟩ largerExports := by
  have links : allLinks largerExports =
      [([], text "Prototype"), ([], text "Prototype"), ([text "Prototype"], text "x"),
        ([], text "O"), ([], text "O"), ([text "O"], text "x"), ([text "O", text "x"], text "y"),
        ([], text "A"), ([], text "A"), ([text "A"], text "x"), ([text "A", text "x"], text "y"),
        ([], text "B"), ([], text "B"), ([text "B"], text "x"), ([text "B", text "x"], text "z"),
        ([], text "L"), ([], text "L"), ([text "L"], text "0")] := by decide +kernel
  refine exports_resolve _ _ _ largerPlace
    ⟨largerHeap_inside, by decide, by decide, by decide, by decide, ?_⟩
    ⟨?_, by decide, by decide +kernel, ?_, ?_, ?_, ?_, ?_, ?_⟩
  · rw [links]
    decide +kernel
  · rw [links]
    exact clean_of_ascii (by decide +kernel)
  · rw [links]
    decide +kernel
  · rw [links]
    decide +kernel
  · have apart : ∀ link ∈ allLinks largerExports, ∀ other ∈ allLinks largerExports,
        (largerPlace (target link) matches .made _) →
        largerPlace (target link) = largerPlace (target other) →
          SameSlot largerPlace link other := by
      rw [links]
      decide +kernel
    intro link known other known' path here there
    exact apart link known other known' (by rw [here]) (here.trans there.symm)
  · rw [links]
    decide +kernel
  · have room : ∀ link ∈ allLinks largerExports,
        ∀ obj ∈ (largerPlace link.1).object smallEngine largerHeap,
          settable largerHeap obj (nameOf link.2) = some true := by
      rw [links]
      decide +kernel
    exact fun link known _ obj here => .inl (room link known obj here)
  · exact fun done e later sorted front key more split _ =>
      finds_of_lengths (by decide +kernel) done e later sorted front key more split

theorem namespace_shared :
    ¬ ∀ (engine : Engine) (start : State) (exports : List Export),
      Allowed engine start exports → (∀ e ∈ exports, [] ∉ pathOf e.1) →
        Unconflicted start exports → Resolves engine start exports := by
  intro resolves
  have links : allLinks [(text "A::toString::x", .other 1), (text "B::toString::x", .other 2)] =
      [([], text "A"), ([text "A"], text "toString"), ([text "A", text "toString"], text "x"),
        ([], text "B"), ([text "B"], text "toString"),
        ([text "B", text "toString"], text "x")] := by
    decide +kernel
  have unexported : ∀ link ∈ allLinks
      [(text "A::toString::x", .other 1), (text "B::toString::x", .other 2)],
      nodeAt [(text "A::toString::x", .other 1), (text "B::toString::x", .other 2)] link.1 =
        .made link.1 := by
    rw [links]
    decide +kernel
  have outcome := resolves smallEngine ⟨[], smallHeap⟩
    [(text "A::toString::x", .other 1), (text "B::toString::x", .other 2)]
    ⟨smallHeap_inside (by decide), by decide, by decide, by decide, by decide,
      by rw [links]; decide +kernel⟩
    (by decide +kernel)
    (fun link member r obj exported =>
      Node.noConfusion ((unexported link member).symm.trans exported))
    _ ⟨_, _, .refl _, ⟨.refl _, by decide +kernel⟩, rfl⟩
  have walked := outcome.1 (text "A::toString::x", .other 1) List.mem_cons_self
  exact absurd walked (by decide +kernel)

end BreezeJs.ModuleExports
