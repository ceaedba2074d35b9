import BreezeJs.Regexp.Explore
import BreezeJs.Regexp.Ranges
import BreezeJs.Regexp.Semantics

set_option autoImplicit false

namespace BreezeJs.Regexp

open SizedCode

def Instr.stackAfter (depth : Nat) : Instr → Nat
  | .pushI32 _ | .pushCharPos => depth + 1
  | .drop | .checkAdvance => depth - 1
  | _ => depth

def depthAfter : Nat → Code → Nat
  | depth, [] => depth
  | depth, i :: code => depthAfter (i.stackAfter depth) code

def peak : Nat → Code → Nat
  | depth, [] => depth
  | depth, i :: code => max depth (peak (i.stackAfter depth) code)

def Balanced (code : Code) : Prop :=
  ∀ depth, depthAfter depth code = depth

theorem depthAfter_append (depth : Nat) (a b : Code) :
    depthAfter depth (a ++ b) = depthAfter (depthAfter depth a) b := by
  induction a generalizing depth with
  | nil => rfl
  | cons i rest ih => exact ih _

theorem le_peak (depth : Nat) (code : Code) : depth ≤ peak depth code := by
  cases code with
  | nil => exact le_refl depth
  | cons i rest => exact le_max_left _ _

theorem peak_append (depth : Nat) (a b : Code) :
    peak depth (a ++ b) = max (peak depth a) (peak (depthAfter depth a) b) := by
  induction a generalizing depth with
  | nil => simp [peak, depthAfter, le_peak]
  | cons i rest ih => simp [peak, depthAfter, ih, max_assoc]

theorem Balanced.append {a b : Code} (first : Balanced a) (second : Balanced b) :
    Balanced (a ++ b) := by
  intro depth
  rw [depthAfter_append, first, second]

theorem Balanced.nil : Balanced [] := fun _ => rfl

theorem computeStackSize_bound {code : Code} {size greatest bound : Nat} (inside : size ≤ greatest)
    (computed : computeStackSize size greatest code = some bound) :
    greatest ≤ bound ∧ peak size code ≤ bound := by
  induction code generalizing size greatest with
  | nil =>
      cases computed
      exact ⟨le_refl _, inside⟩
  | cons i rest ih =>
      have step : ∃ next, greatest ≤ next ∧ i.stackAfter size ≤ next ∧
          computeStackSize (i.stackAfter size) next rest = some bound := by
        cases i with
        | pushI32 | pushCharPos =>
            simp only [computeStackSize] at computed
            split_ifs at computed with more
            · exact ⟨size + 1, by omega, le_refl _, computed⟩
            · exact ⟨greatest, le_refl _, by simp only [Instr.stackAfter]; omega, computed⟩
        | drop | checkAdvance =>
            exact ⟨greatest, le_refl _, by simp only [Instr.stackAfter]; omega, computed⟩
        | _ => exact ⟨greatest, le_refl _, inside, computed⟩
      obtain ⟨next, grows, fits, later⟩ := step
      have bounds := ih fits later
      exact ⟨by omega, by simp only [peak]; omega⟩

abbrev Place.thread (x : Place) (pc : Int) (stack : List Nat) : Thread :=
  { pc := pc, cptr := x.cptr, capture := x.capture, stack := stack }

section Implementation

variable (ctx : Context)

abbrev Valid (x : Place) : Prop :=
  Sound ctx.toSubject ctx.captureCount x

def Implements (code : Code) (f : Place → List Place) : Prop :=
  ∀ (pc exit : Int) (stack : List Nat) (x : Place) (found : Place → List Thread),
    CodeAt Instr.size ctx.code pc code → exit = pc + codeSize code →
    peak stack.length code ≤ ctx.stackSize → Valid ctx x →
    (∀ y ∈ f x, Explores ctx (y.thread exit stack) (found y)) →
    Explores ctx (x.thread pc stack) ((f x).flatMap found)

end Implementation

section Composition

variable {ctx : Context} {a b : Code} {f g : Place → List Place} {i : Instr}

theorem at_right {program : Code} {pc next : Int} (placed : CodeAt Instr.size program pc (a ++ b))
    (address : next = pc + codeSize a) : CodeAt Instr.size program next b :=
  placed.right address

theorem effect_at {pc : Int} {rest : Code} (placed : CodeAt Instr.size ctx.code pc (i :: rest))
    (x : Place) (stack : List Nat) :
    effect ctx (x.thread pc stack) = execute ctx (x.thread (pc + i.size) stack) i := by
  simp only [effect, Place.thread, placed.fetch Instr.size_pos]

theorem Implements.congr (coded : Implements ctx a f) (same : ∀ x, Valid ctx x → f x = g x) :
    Implements ctx a g := by
  intro pc exit stack x found placed address fits valid onward
  rw [← same x valid] at onward ⊢
  exact coded pc exit stack x found placed address fits valid onward

theorem Implements.nil : Implements ctx [] (fun x => [x]) := by
  intro pc exit stack x found _ address _ _ onward
  have same : exit = pc := by simpa using address
  simpa [same] using onward x (by simp)

theorem Implements.append (first : Implements ctx a f) (second : Implements ctx b g)
    (balanced : Balanced a) (keeps : ∀ x, Valid ctx x → ∀ y ∈ f x, Valid ctx y) :
    Implements ctx (a ++ b) (fun x => (f x).flatMap g) := by
  intro pc exit stack x found placed address fits valid onward
  rw [peak_append, balanced] at fits
  rw [List.flatMap_assoc]
  apply first pc (pc + codeSize a) stack x _ placed.left rfl (by omega) valid
  intro y member
  apply second _ exit stack y found (at_right placed rfl) _ (by omega) (keeps x valid y member)
  · intro z later
    exact onward z (List.mem_flatMap_of_mem member later)
  · rw [codeSize_append] at address
    omega

theorem Implements.single
    (runs : ∀ x, Valid ctx x → ∀ pc stack,
      (execute ctx (x.thread pc stack) i = .noMatch ∧ f x = []) ∨
        ∃ y, execute ctx (x.thread pc stack) i = .step (y.thread pc stack) ∧ f x = [y]) :
    Implements ctx [i] f := by
  intro pc exit stack x found placed address _ valid onward
  have next : exit = pc + i.size := by simpa using address
  rcases runs x valid (pc + i.size) stack with ⟨failed, none⟩ | ⟨y, stepped, one⟩
  · rw [none]
    exact .noMatch ((effect_at placed x stack).trans failed)
  · rw [one] at onward ⊢
    have later := onward y (List.mem_singleton_self y)
    rw [next] at later
    simpa using Explores.step ((effect_at placed x stack).trans stepped) later

end Composition

end BreezeJs.Regexp
