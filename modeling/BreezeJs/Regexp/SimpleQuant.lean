import BreezeJs.Regexp.Loops

set_option autoImplicit false

namespace BreezeJs.Regexp

open SizedCode Choices

variable {ctx : Context}

def Moved (input : Input) (n cptr next : Nat) : Prop :=
  (n = 0 ∧ next = cptr) ∨ (n = 1 ∧ ∃ c, input.getChar cptr input.cbufEnd = some (c, next))

def Simple (ctx : Context) (n : Nat) (t : Thread) (effect : Effect) : Prop :=
  effect = .noMatch ∨ effect = .fault ∨
    ∃ next, effect = .step { t with cptr := next } ∧ Moved ctx.input n t.cptr next

theorem simple_any (t : Thread) (accepts : Nat → Bool) :
    Simple ctx 1 t (testAny ctx t accepts) := by
  simp only [testAny]
  split
  · exact .inl rfl
  · split
    · exact .inr (.inl rfl)
    · next c next read =>
        split
        · exact .inr (.inr ⟨next, rfl, .inr ⟨rfl, c, read⟩⟩)
        · exact .inl rfl

theorem simple_char (t : Thread) (val : Nat) : Simple ctx 1 t (testChar ctx t val) := by
  simp only [testChar]
  split
  · exact .inl rfl
  · split
    · exact .inr (.inl rfl)
    · next c next read =>
        split
        · exact .inl rfl
        · exact .inr (.inr ⟨next, rfl, .inr ⟨rfl, c, read⟩⟩)

theorem simple_range (t : Thread) (ranges : List (Nat × Nat)) (wide : Bool) :
    Simple ctx 1 t (testRange ctx t ranges wide) := by
  simp only [testRange]
  split
  · exact .inl rfl
  · split
    · exact .inr (.inl rfl)
    · next c next read =>
        split
        · exact .inr (.inr ⟨next, rfl, .inr ⟨rfl, c, read⟩⟩)
        · exact .inl rfl
        · exact .inr (.inl rfl)

theorem simple_stay (t : Thread) : Simple ctx 0 t (.step t) :=
  .inr (.inr ⟨t.cptr, rfl, .inl ⟨rfl, rfl⟩⟩)

theorem simple_lineStart (t : Thread) : Simple ctx 0 t (testLineStart ctx t) := by
  simp only [testLineStart]
  split
  · exact simple_stay t
  · split
    · exact .inl rfl
    · split
      · exact .inr (.inl rfl)
      · split
        · exact simple_stay t
        · exact .inl rfl

theorem simple_lineEnd (t : Thread) : Simple ctx 0 t (testLineEnd ctx t) := by
  simp only [testLineEnd]
  split
  · exact simple_stay t
  · split
    · exact .inl rfl
    · split
      · exact .inr (.inl rfl)
      · split
        · exact simple_stay t
        · exact .inl rfl

theorem simple_wordBoundary (t : Thread) (negated : Bool) :
    Simple ctx 0 t (testWordBoundary ctx t negated) := by
  simp only [testWordBoundary]
  split
  · split
    · exact .inl rfl
    · exact simple_stay t
  · exact .inr (.inl rfl)

theorem execute_simple {i : Instr} {n : Nat} (simple : i.simpleCount = some n) (t : Thread) :
    Simple ctx n t (execute ctx t i) := by
  cases i with
  | char8 c | char16 c | char32 c =>
      cases simple
      exact simple_char t c
  | dot | any =>
      cases simple
      exact simple_any t _
  | range ranges =>
      cases simple
      exact simple_range t ranges false
  | range32 ranges =>
      cases simple
      exact simple_range t ranges true
  | lineStart =>
      cases simple
      exact simple_lineStart t
  | lineEnd =>
      cases simple
      exact simple_lineEnd t
  | wordBoundary =>
      cases simple
      exact simple_wordBoundary t false
  | notWordBoundary =>
      cases simple
      exact simple_wordBoundary t true
  | _ => cases simple

theorem goBackward_append {input : Input} {a b : Nat} {cptr middle : Nat}
    (first : goBackward input a cptr = some middle) :
    goBackward input (a + b) cptr = goBackward input b middle := by
  induction a generalizing cptr with
  | zero =>
      cases first
      rw [Nat.zero_add]
  | succ a ih =>
      obtain ⟨prev, step, rest⟩ := Option.bind_eq_some_iff.mp first
      rw [Nat.succ_add, goBackward, step]
      exact ih rest

theorem goBackward_lt {input : Input} {n cptr next : Nat} (positive : 0 < n)
    (back : goBackward input n cptr = some next) : next < cptr := by
  have step : ∀ cptr next, input.prevChar cptr = some next → next < cptr := by
    intro cptr next step
    obtain ⟨⟨c, prev⟩, read, rfl⟩ := Option.map_eq_some_iff.mp step
    exact (Input.getPrevChar_bounds read).1
  have le : ∀ n cptr next, goBackward input n cptr = some next → next ≤ cptr := by
    intro n
    induction n with
    | zero =>
        intro cptr next back
        cases back
        exact le_refl _
    | succ n ih =>
        intro cptr next back
        obtain ⟨prev, first, rest⟩ := Option.bind_eq_some_iff.mp back
        have less := step _ _ first
        have more := ih _ _ rest
        omega
  cases n with
  | zero => omega
  | succ n =>
      obtain ⟨prev, first, rest⟩ := Option.bind_eq_some_iff.mp back
      have less := step _ _ first
      have more := le _ _ _ rest
      omega

theorem Moved.back {input : Input} {n cptr next : Nat} (moved : Moved input n cptr next)
    (aligned : input.Aligned cptr) :
    goBackward input n next = some cptr ∧ input.Aligned next := by
  rcases moved with ⟨rfl, rfl⟩ | ⟨rfl, c, read⟩
  · exact ⟨rfl, aligned⟩
  · have back := Input.getChar_back read aligned
    have step : input.prevChar next = some cptr := by simp [Input.prevChar, back.1]
    exact ⟨by simp [goBackward, step], back.2⟩

theorem explores_of_matched {t : Thread} {found : List Thread} (here : effect ctx t = .matched)
    (explores : Explores ctx t found) : found = [t] := by
  cases explores <;> simp_all

theorem explores_of_noMatch {t : Thread} {found : List Thread} (here : effect ctx t = .noMatch)
    (explores : Explores ctx t found) : found = [] := by
  cases explores <;> simp_all

theorem explores_of_step {t u : Thread} {found : List Thread} (here : effect ctx t = .step u)
    (explores : Explores ctx t found) : Explores ctx u found := by
  cases explores <;> simp_all

theorem not_explores_fault {t : Thread} {found : List Thread} (here : effect ctx t = .fault) :
    ¬ Explores ctx t found := by
  intro explores
  cases explores <;> simp_all

theorem straight_of_explores {atom : Code} {count : Nat}
    (simple : isSimpleQuantifier atom = some count) {t : Thread} {found : List Thread}
    (placed : CodeAt Instr.size ctx.code t.pc (atom ++ [.match_]))
    (aligned : ctx.input.Aligned t.cptr) (explores : Explores ctx t found) :
    ∃ u ret, Straight ctx t ret u ∧ u.capture = t.capture ∧ u.stack = t.stack ∧
      found = (if ret then [u] else []) ∧
      (ret = true → goBackward ctx.input count u.cptr = some t.cptr) := by
  induction atom generalizing t count with
  | nil =>
      cases simple
      have here : effect ctx t = .matched := by
        simp only [effect, placed.fetch Instr.size_pos]
        rfl
      exact ⟨t, true, .matched here, rfl, rfl, explores_of_matched here explores, fun _ => rfl⟩
  | cons i rest ih =>
      obtain ⟨n, m, first, later, rfl⟩ : ∃ n m, i.simpleCount = some n ∧
          isSimpleQuantifier rest = some m ∧ count = n + m := by
        simp only [isSimpleQuantifier] at simple
        split at simple
        · next n m first later => exact ⟨n, m, first, later, (Option.some.inj simple).symm⟩
        · cases simple
      have here : effect ctx t = execute ctx { t with pc := t.pc + i.size } i := by
        simp only [effect, placed.fetch Instr.size_pos]
      rcases execute_simple first { t with pc := t.pc + i.size } with failed | fault |
        ⟨next, stepped, moved⟩
      · have failed := here.trans failed
        exact ⟨t, false, .failed failed, rfl, rfl, explores_of_noMatch failed explores, by simp⟩
      · exact absurd explores (not_explores_fault (here.trans fault))
      · have stepped := here.trans stepped
        have back := moved.back aligned
        obtain ⟨u, ret, straight, capture, stack, result, returns⟩ :=
          ih later (placed.tail rfl) back.2 (explores_of_step stepped explores)
        refine ⟨u, ret, .step stepped straight, capture, stack, result, ?_⟩
        intro matched
        rw [Nat.add_comm, goBackward_append (returns matched)]
        exact back.1

section Repetition

variable {atom : Code} {f : Place → List Place} {count : Nat} {body : Int} {stack : List Nat}

theorem straight_round (coded : Implements ctx atom f)
    (simple : isSimpleQuantifier atom = some count)
    (placed : CodeAt Instr.size ctx.code body (atom ++ [.match_]))
    (fits : peak stack.length atom ≤ ctx.stackSize) {x : Place} (valid : Valid ctx x) :
    (f x = [] ∧ ∃ u, Straight ctx (x.thread body stack) false u ∧ u.capture = x.capture ∧
        u.stack = stack) ∨
      ∃ y, f x = [y] ∧ y.capture = x.capture ∧
        Straight ctx (x.thread body stack) true (y.thread (body + codeSize atom) stack) ∧
        goBackward ctx.input count y.cptr = some x.cptr := by
  have ending : CodeAt Instr.size ctx.code (body + codeSize atom) [.match_] := at_right placed rfl
  have explores : Explores ctx (x.thread body stack)
      ((f x).flatMap fun y => [y.thread (body + codeSize atom) stack]) := by
    apply coded body _ stack x _ placed.left rfl fits valid
    intro y _
    exact .matched (effect_at ending y stack)
  obtain ⟨u, ret, straight, capture, same, result, returns⟩ :=
    straight_of_explores simple placed valid.aligned explores
  have all : (f x).map (fun y => y.thread (body + codeSize atom) stack) =
      if ret then [u] else [] := by
    rw [← result, List.map_eq_flatMap]
  cases ret with
  | false => exact .inl ⟨List.map_eq_nil_iff.mp all, u, straight, capture, same⟩
  | true =>
      obtain ⟨y, one, rfl⟩ := List.map_eq_singleton_iff.mp all
      exact .inr ⟨y, one, capture, straight, returns rfl⟩

structure Repeats (ctx : Context) (f : Place → List Place) (count n : Nat) (x : Place)
    (path : Nat → Place) : Prop where
  start : path 0 = x
  valid : ∀ i ≤ n, Valid ctx (path i) ∧ (path i).capture = x.capture
  next : ∀ i < n, f (path i) = [path (i + 1)]
  back : ∀ i < n, goBackward ctx.input count (path (i + 1)).cptr = some (path i).cptr

def consPath (x : Place) (path : Nat → Place) : Nat → Place
  | 0 => x
  | i + 1 => path i

theorem Repeats.refl {x : Place} (valid : Valid ctx x) : Repeats ctx f count 0 x (fun _ => x) where
  start := rfl
  valid := fun _ _ => ⟨valid, rfl⟩
  next := fun i less => absurd less (Nat.not_lt_zero i)
  back := fun i less => absurd less (Nat.not_lt_zero i)

theorem Repeats.cons {n : Nat} {x y : Place} {path : Nat → Place} (valid : Valid ctx x)
    (round : f x = [y]) (same : y.capture = x.capture)
    (back : goBackward ctx.input count y.cptr = some x.cptr)
    (repeats : Repeats ctx f count n y path) : Repeats ctx f count (n + 1) x (consPath x path) where
  start := rfl
  valid := by
    intro i inside
    cases i with
    | zero => exact ⟨valid, rfl⟩
    | succ i =>
        have later := repeats.valid i (by omega)
        exact ⟨later.1, later.2.trans same⟩
  next := by
    intro i less
    cases i with
    | zero => simpa [consPath, repeats.start] using round
    | succ i => exact repeats.next i (by omega)
  back := by
    intro i less
    cases i with
    | zero => simpa [consPath, repeats.start] using back
    | succ i => exact repeats.back i (by omega)

theorem Repeats.bound (positive : 0 < count) {n : Nat} {x : Place} {path : Nat → Place}
    (repeats : Repeats ctx f count n x path) : ∀ i ≤ n, i ≤ (path i).cptr := by
  intro i
  induction i with
  | zero => simp
  | succ i ih =>
      intro inside
      have less := goBackward_lt positive (repeats.back i (by omega))
      have before := ih (by omega)
      omega

structure Repeated (ctx : Context) (f : Place → List Place) (quant : Quant) (x : Place)
    (stack : List Nat) (n : Nat) (path : Nat → Place) (last : Quant) (u : Thread) : Prop where
  rounds : Rounds ctx quant (x.thread quant.body stack) last u
  capture : u.capture = x.capture
  stack : u.stack = stack
  count : last.q = quant.q + n
  cptr : last.cptr = (path n).cptr
  repeats : Repeats ctx f quant.charCount n x path
  finished : f (path n) = [] ∨ last.q = quant.quantMax ∧ quant.quantMax ≠ int32Max
  allowed : quant.quantMax = int32Max ∨ last.q ≤ quant.quantMax

theorem repeated (coded : Implements ctx atom f) (keeps : Keeps ctx f)
    (simple : isSimpleQuantifier atom = some count) (positive : 0 < count)
    (placed : CodeAt Instr.size ctx.code body (atom ++ [.match_]))
    (fits : peak stack.length atom ≤ ctx.stackSize) (m : Nat) {quant : Quant} {x : Place}
    (near : ctx.input.cbufEnd - x.cptr < m) (valid : Valid ctx x) (here : quant.body = body)
    (same : quant.cptr = x.cptr) (chars : quant.charCount = count)
    (allowed : quant.quantMax = int32Max ∨ quant.q < quant.quantMax) :
    ∃ n path last u, Repeated ctx f quant x stack n path last u := by
  induction m generalizing quant x with
  | zero => omega
  | succ m ih =>
      subst here chars
      rcases straight_round coded simple placed fits valid with
        ⟨none, u, straight, capture, stack⟩ | ⟨y, one, kept, straight, back⟩
      · refine ⟨0, fun _ => x, quant, u, .failed straight, capture, stack, rfl, same,
          .refl valid, .inl none, ?_⟩
        exact allowed.imp_right Nat.le_of_lt
      · have valid' := keeps x valid y (by simp [one])
        have advance := goBackward_lt positive back
        have inside := valid'.inside
        by_cases full : (quant.round (y.thread (quant.body + codeSize atom) stack)).full
        · refine ⟨1, consPath x fun _ => y, _, _, .full straight full, kept, rfl, rfl, rfl,
            .cons valid one kept back (.refl valid'), .inr ⟨?_, full.2⟩, .inr ?_⟩
          · have most := full.1
            have less := allowed.resolve_left full.2
            simp only [Quant.round] at most ⊢
            omega
          · have less := allowed.resolve_left full.2
            simp only [Quant.round]
            omega
        · have more : quant.quantMax = int32Max ∨ quant.q + 1 < quant.quantMax := by
            by_cases infinite : quant.quantMax = int32Max
            · exact .inl infinite
            · right
              by_contra most
              exact full ⟨Nat.le_of_not_lt most, infinite⟩
          obtain ⟨n, path, last, u, done⟩ := @ih
            (quant.round (y.thread (quant.body + codeSize atom) stack)) y (by omega) valid' rfl rfl
            rfl more
          refine ⟨n + 1, consPath x path, last, u, .more straight full done.rounds,
            done.capture.trans kept, done.stack, ?_, done.cptr,
            .cons valid one kept back done.repeats, done.finished, done.allowed⟩
          rw [done.count]
          simp only [Quant.round]
          omega

theorem advancing_eq {x : Place} (advances : ∀ y ∈ f x, y.cptr ≠ x.cptr) :
    advancing f x = f x := by
  apply List.filter_eq_self.mpr
  intro y member
  simpa using advances y member

theorem quantified_repeats {q : Quantifier} (greedy : q.greedy = true) (positive : 0 < count)
    {n : Nat} {x : Place} {path : Nat → Place} (repeats : Repeats ctx f count n x path)
    (finished : f (path n) = [] ∨ n = q.quantMax ∧ q.quantMax ≠ int32Max)
    (allowed : q.quantMax = int32Max ∨ n ≤ q.quantMax) :
    quantified ctx.toSubject q f x =
      if n < q.quantMin then []
      else (List.range (n - q.quantMin + 1)).map fun j => path (n - j) := by
  have next : ∀ i < n, advancing f (path i) = [path (i + 1)] := by
    intro i less
    rw [advancing_eq, repeats.next i less]
    intro y member
    rw [repeats.next i less, List.mem_singleton] at member
    have before := goBackward_lt positive (repeats.back i less)
    rw [member]
    omega
  have ordered := q.ordered
  simp only [quantified]
  rw [← repeats.start]
  by_cases few : n < q.quantMin
  · have stops : f (path n) = [] := finished.resolve_right (by omega)
    rw [if_pos few, exactly_past repeats.next stops (Nat.zero_le n) (by omega), List.flatMap_nil]
  · have least := exactly_path repeats.next (show 0 + q.quantMin ≤ n by omega)
    rw [if_neg few, least, List.flatMap_singleton, greedy, Nat.zero_add]
    have enough : upTo (advancing f) true (q.rounds ctx.toSubject) (path q.quantMin) =
        upTo (advancing f) true (n - q.quantMin) (path q.quantMin) := by
      have inside := (repeats.valid n (Nat.le_refl n)).1.inside
      have bound := repeats.bound positive n (Nat.le_refl n)
      rcases finished with stops | ⟨all, finite⟩
      · apply upTo_stops next (by simp [advancing, stops]) (by omega)
        simp only [Quantifier.rounds]
        split
        · omega
        · next finite =>
            have most := allowed.resolve_left finite
            omega
      · simp only [Quantifier.rounds, if_neg finite, all]
    rw [enough, upTo_path next (by omega)]
    apply List.map_congr_left
    intro j _
    congr 1
    omega

theorem Implements.simpleGreedyQuant (coded : Implements ctx atom f) (keeps : Keeps ctx f)
    (simple : isSimpleQuantifier atom = some count) (positive : 0 < count) {q : Quantifier}
    (greedy : q.greedy = true) (nonzero : 0 < q.quantMax) :
    Implements ctx
      (.simpleGreedyQuant (codeSize (atom ++ [.match_])) q.quantMin q.quantMax count ::
        (atom ++ [.match_]))
      (quantified ctx.toSubject q f) := by
  intro pc exit stack x found placed address fits valid onward
  have code : CodeAt Instr.size ctx.code (pc + 17) (atom ++ [.match_]) := placed.tail rfl
  have out : pc + 17 + codeSize (atom ++ [.match_]) = exit := by
    simp only [codeSize_cons, codeSize_append, codeSize_nil, Instr.size] at address ⊢
    omega
  have here : effect ctx (x.thread pc stack) =
      .greedyQuant (pc + 17) exit q.quantMin q.quantMax count := by
    rw [effect_at placed, ← out]
    rfl
  have deep : peak stack.length atom ≤ ctx.stackSize := by
    simp only [peak, peak_append, Instr.stackAfter] at fits
    omega
  obtain ⟨n, path, last, u, done⟩ := @repeated ctx atom f count (pc + 17) stack coded keeps
    simple positive code deep (ctx.input.cbufEnd - x.cptr + 1)
    ⟨pc + 17, exit, q.quantMin, q.quantMax, count, 0, x.cptr⟩ x (by omega) valid rfl rfl rfl
    (.inr nonzero)
  have size : last.q = n := by simpa using done.count
  have finished := done.finished
  have allowed := done.allowed
  simp only [size] at finished allowed
  have meaning := quantified_repeats greedy positive done.repeats finished allowed
  rw [meaning] at onward ⊢
  by_cases few : n < q.quantMin
  · rw [if_pos few]
    exact .few here done.rounds (by omega)
  · rw [if_neg few] at onward ⊢
    have explores : Explores ctx (x.thread pc stack)
        ((List.range (last.q - q.quantMin + 1)).flatMap fun j => found (path (n - j))) := by
      apply @Explores.greedy ctx _ u _ _ _ _ _ last (fun j => (path (n - j)).cptr) _ here done.rounds
        (by omega)
      · simpa using done.cptr.symm
      · intro i less
        have back := done.repeats.back (n - i - 1) (by omega)
        have next : n - i - 1 + 1 = n - i := by omega
        rw [next] at back
        exact back
      · intro i less
        have kept := (done.repeats.valid (n - i) (by omega)).2
        have reached := onward (path (n - i))
          (List.mem_map_of_mem (List.mem_range.mpr (by omega)))
        rw [done.capture, done.stack, ← kept]
        exact reached
    rw [size] at explores
    rw [List.flatMap_map]
    exact explores

end Repetition

end BreezeJs.Regexp
