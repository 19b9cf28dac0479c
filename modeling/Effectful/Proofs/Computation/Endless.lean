import Effectful.Program.Loop
import Effectful.Proofs.Program.Reading
import Effectful.Proofs.Program.Unfolding
/-!
# Loops that end by failure alone

The endless loop is left by a failure of the program that it repeats, and in no other way. What is bound to it is never
reached: reduction moves it into the continuations of the loop, again in each round, and no round is the last.
-/
namespace Effectful

universe u

open Filter

namespace Program

variable {R : Type} {F : Type → Type u} {α β : Type}

theorem Approximates.forever {p p' : Program R F α} (h : p.Approximates p') {m n : Nat} (hmn : m ≤ n) :
    (forever m p : Program R F β).Approximates (forever n p') := by
  induction m generalizing n with
  | zero => exact .cut _
  | succ m ih =>
    obtain ⟨n,rfl⟩ := Nat.exists_eq_add_of_le' (Nat.one_le_of_lt hmn)
    exact .bind h fun _ _ => ih (Nat.le_of_succ_le_succ hmn)

theorem times_zero (p : Program R F α) : times ((0 : Nat) : Rat) p = done () := by
  rw [times,if_pos (by simp)]

theorem times_succ (k : Nat) (p : Program R F α) :
    times ((k + 1 : Nat) : Rat) p = .bind p fun _ _ => times (k : Rat) p := by
  have hpos : ¬ ((k + 1 : Nat) : Rat) ≤ 0 := by exact_mod_cast (by omega : ¬ k + 1 ≤ 0)
  have hcount : ((k + 1 : Nat) : Rat) - 1 = k := by
    rw [Rat.natCast_add]
    exact Rat.add_sub_cancel
  rw [times,if_neg hpos,hcount]

/-- The program begins with `first`, and further binds follow. -/
inductive Begins (first : Program R F β) : {α : Type} → Program R F α → Prop
  | alone : Begins first first
  | bind {α γ : Type} {p : Program R F γ} {k : γ → R → Program R F α} : Begins first p → Begins first (.bind p k)

theorem Begins.reading_eq {S : Type*} {source : Source S F} {look : S → R} {first : Program R F β} {p : Program R F α}
    (h : Begins first p) {met : List (Σ β : Type, Met R F β)} {halt : Halt} {s v : S}
    (hfirst : ∀ waited, reading source look waited first s = (met,.error halt,v)) (waited : Bool) :
    reading source look waited p s = (met,.error halt,v) := by
  induction h generalizing waited with
  | alone => exact hfirst waited
  | bind _ ih => simp only [reading,ih]

theorem exists_reading_forever {S : Type*} (source : Source S F) (look : S → R)
    (n : Nat) (p : Program R F α) (s : S) :
    ∃ met halt v, ∀ waited, reading source look waited (forever n p : Program R F β) s = (met,.error halt,v) := by
  induction n generalizing s with
  | zero => exact ⟨[],.raised .outOfFuel,s,fun _ => rfl⟩
  | succ n ih =>
    simp only [forever,reading]
    rcases reading source look true p s with ⟨met,halt | b,v⟩
    · exact ⟨met,halt,v,fun _ => rfl⟩
    · obtain ⟨met',halt,u,hrest⟩ := ih v
      exact ⟨_,halt,u,fun waited => by simp only [hrest]; rfl⟩

end Program

namespace Computation

variable {R W α β : Type} [View W R]

/-- The actions that the run of a computation performs, and what it comes to. -/
def trace (c : Computation R W α) (w : W) : Trace (Action W) W α :=
  (c.operations "runTrampoline" Translator.id w,c.execute w)

private theorem trace_eq (c : Computation R W α) (w : W) :
    trace c w = Program.trace "runTrampoline" Translator.id c w :=
  congrArg (Prod.mk _) (Program.execute_eq_eval ..)

theorem trace_done (a : α) (w : W) : trace (.done a : Computation R W α) w = ([],.ok a,w) := trace_eq _ w

theorem trace_raise (e : Failure) (w : W) : trace (.raise e : Computation R W α) w = ([],.error e,w) := trace_eq _ w

theorem trace_delay (t : Action W α) (w : W) : trace (delay t : Computation R W α) w = ([⟨α,t⟩],t w) := trace_eq _ w

section Bind

variable {sub : Computation R W β} {k : β → R → Computation R W α} {ops : List (Σ β : Type, Action W β)} {w u : W}

theorem trace_bind_of_ok {b : β} (h : trace sub w = (ops,.ok b,u)) :
    trace (.bind sub k) w = (trace (k b (View.look u)) u).after ops := by
  rw [trace_eq] at h
  rw [trace_eq,trace_eq]
  exact Program.trace_bind_of_ok h

theorem trace_bind_of_error {e : Failure} (h : trace sub w = (ops,.error e,u)) :
    trace (.bind sub k) w = (ops,.error e,u) := by
  rw [trace_eq] at h
  rw [trace_eq]
  exact Program.trace_bind_of_error h

end Bind

theorem operations_eq_asked (c : Computation R W α) (waited : Bool) (w : W) :
    c.operations "runTrampoline" Translator.id w =
      Program.asked (Program.reading (Source.performing Translator.id) View.look waited c w).1 := by
  induction c generalizing waited w with
  | done | effect | malformed | raise => rfl
  | bind sub k ihs ihk =>
    simp only [Program.operations,Program.reading,ihs true w,
      Program.eval_eq_reading "runTrampoline" Translator.id true sub w]
    rcases Program.reading (Source.performing Translator.id) View.look true sub w with ⟨met,halt | b,u⟩
    · exact List.append_nil _
    · simp only [Program.report,ihk b (View.look u) waited u,Program.asked,List.filterMap_append,
        List.filterMap_cons_none]

theorem trace_eq_reading (c : Computation R W α) (waited : Bool) (w : W) :
    let x := Program.reading (Source.performing Translator.id) View.look waited c w
    c.trace w = (Program.asked x.1,Program.report "runTrampoline" x.2.1,x.2.2) :=
  Prod.ext (operations_eq_asked c waited w) <|
    (Program.execute_eq_eval ..).trans (Program.eval_eq_reading "runTrampoline" Translator.id waited c w)

theorem trace_of_approximates {p q : Computation R W α} (h : p.Approximates q) {w : W}
    (hw : (p.trace w).2.1 ≠ .error .outOfFuel) : q.trace w = p.trace w := by
  induction h generalizing w with
  | refl p => rfl
  | cut p => exact absurd (by rw [trace_raise]) hw
  | @bind _ _ sub sub' k k' _ _ ihs ihk =>
    rcases hx : trace sub w with ⟨ops,b | e,u⟩
    · have hsub : trace sub' w = (ops,.ok b,u) := by
        rw [← hx]
        exact ihs (by simp [hx])
      rw [trace_bind_of_ok hx] at hw ⊢
      rw [trace_bind_of_ok hsub,ihk b (View.look u) hw]
    · rw [trace_bind_of_error hx] at hw ⊢
      have hsub : trace sub' w = (ops,.error e,u) := by
        rw [← hx]
        exact ihs (by simpa [hx] using hw)
      exact trace_bind_of_error hsub

/-- The runs of the cut-offs come to one trace, which is not that of being cut off. -/
def Comes (c : Nat → Computation R W α) (w : W) (x : Trace (Action W) W α) : Prop :=
  x.2.1 ≠ .error .outOfFuel ∧ ∀ᶠ n in atTop, (c n).trace w = x

theorem comes_of_trace {c : Nat → Computation R W α} (hc : ∀ n, (c n).Approximates (c (n + 1))) {w : W}
    {x : Trace (Action W) W α} {n : Nat} (hn : (c n).trace w = x) (hx : x.2.1 ≠ .error .outOfFuel) : Comes c w x := by
  subst hn
  refine ⟨hx,eventually_atTop.mpr ⟨n,fun m hm => ?_⟩⟩
  induction m, hm using Nat.le_induction with
  | base => rfl
  | succ m _ ih =>
    rw [← ih]
    apply trace_of_approximates (hc m)
    rwa [ih]

section Executions

variable {p : Nat → Computation R W α} {ops ops' : List (Σ β : Type, Action W β)} {w u v : W} {k : Nat}

variable (p) in
/-- So many executions of a computation end normally, one after the other, with these actions. -/
inductive Executions : Nat → W → List (Σ β : Type, Action W β) → W → Prop
  | none (w : W) : Executions 0 w [] w
  | next {k : Nat} {a : α} {ops ops' : List (Σ β : Type, Action W β)} {w u v : W} :
      Comes p w (ops,.ok a,u) → Executions k u ops' v → Executions (k + 1) w (ops ++ ops') v

/-- After so many executions the loop has made their actions, and goes on as it began, with so many rounds less. -/
theorem Executions.trace_forever (h : Executions p k w ops u) (β : Type) :
    ∀ᶠ n in atTop, ∀ m, trace (Program.forever (k + m) (p n) : Computation R W β) w =
      (trace (Program.forever m (p n) : Computation R W β) u).after ops := by
  induction h with
  | none w => exact .of_forall fun n m => by rw [Nat.zero_add,Trace.after_nil]
  | @next k a ops ops' w u v hfirst _ ih =>
    filter_upwards [hfirst.2,ih] with n hn hrest m
    rw [Nat.succ_add,Program.forever,trace_bind_of_ok hn,hrest m,Trace.after_after]

theorem Executions.comes_times (h : Executions p k w ops u) :
    Comes (fun n => Program.times k (p n)) w (ops,.ok (),u) := by
  refine ⟨nofun,?_⟩
  induction h with
  | none w =>
    exact .of_forall fun n => (congrArg (trace · w) (Program.times_zero (p n))).trans (trace_done () w)
  | @next k a ops ops' w u v hfirst _ ih =>
    filter_upwards [hfirst.2,ih] with n hn hrest
    rw [Program.times_succ,trace_bind_of_ok hn,hrest]
    rfl

theorem Executions.comes_forever (h : Executions p k w ops u) {e : Failure} (hlast : Comes p u (ops',.error e,v))
    (β : Type) : Comes (fun n => (Program.forever n (p n) : Computation R W β)) w (ops ++ ops',.error e,v) := by
  refine ⟨fun he => hlast.1 (by cases he; rfl),?_⟩
  filter_upwards [h.trace_forever β,hlast.2,eventually_ge_atTop (k + 1)] with n hn hfails hle
  obtain ⟨m,rfl⟩ := Nat.exists_eq_add_of_le hle
  have hround := hn (1 + m)
  rw [← Nat.add_assoc,Nat.add_comm 1 m,Program.forever,trace_bind_of_error hfails] at hround
  exact hround

theorem not_endsWith_forever (hp : ∀ n, (p n).Approximates (p (n + 1))) (hruns : ∀ k, ∃ ops u, Executions p k w ops u) :
    ¬ ∃ x v, EndsWith (fun n => execute (Program.forever n (p n) : Computation R W β) w) x v := by
  rintro ⟨x,v,hx,hends⟩
  obtain ⟨k,hk⟩ := hends.exists
  have hrounds : Comes (fun n => (Program.forever k (p n) : Computation R W β)) w (_,x,v) :=
    comes_of_trace (fun n => (hp n).forever le_rfl) (congrArg (Prod.mk _) hk) hx
  obtain ⟨ops,u,hexecutions⟩ := hruns k
  obtain ⟨n,hn,hcut⟩ := (hrounds.2.and (hexecutions.trace_forever β)).exists
  have hlast := hn.symm.trans (hcut 0)
  rw [Program.forever,trace_raise] at hlast
  exact hx (congrArg (fun y => y.2.1) hlast)

theorem exists_executions (hp : ∀ n, (p n).Approximates (p (n + 1))) {m n : Nat} {x : Trace (Action W) W β}
    (h : trace (Program.forever m (p n)) w = x) (hx : x.2.1 ≠ .error .outOfFuel) :
    ∃ k ops u ops' e v, Executions p k w ops u ∧ Comes p u (ops',.error e,v) ∧ x = (ops ++ ops',.error e,v) := by
  induction m generalizing w x with
  | zero =>
    rw [Program.forever,trace_raise] at h
    subst h
    exact absurd rfl hx
  | succ m ih =>
    rw [Program.forever] at h
    rcases hfirst : trace (p n) w with ⟨ops,a | e,u⟩
    · rw [trace_bind_of_ok hfirst] at h
      subst h
      obtain ⟨k,ops₁,v,ops₂,e,v',hrest,hlast,hends⟩ := ih rfl hx
      refine ⟨k + 1,ops ++ ops₁,v,ops₂,e,v',.next (comes_of_trace hp hfirst nofun) hrest,hlast,?_⟩
      rw [hends,Trace.after,List.append_assoc]
    · rw [trace_bind_of_error hfirst] at h
      subst h
      exact ⟨0,[],w,ops,e,u,.none w,comes_of_trace hp hfirst fun he => hx (by cases he; rfl),rfl⟩

end Executions

/-- The endless loop ends by failure alone. Whatever is bound to it, nothing of that is read in any run, no continuation
of it is applied, and the run fails as that of the loop does. If so many executions of the program end normally, and the
next one fails, then the loop comes to this failure, with the actions of these executions and of the failing one; and it
comes to nothing else. If there is always one more execution that ends normally, the loop does not end, and after any
number of them it has made the actions that the counted loop makes, and goes on as it began. -/
theorem forever_ends_by_failure {p : Nat → Computation R W α} (hp : ∀ n, (p n).Approximates (p (n + 1))) (w : W) :
    let endless (β : Type) (n : Nat) : Computation R W β := Program.forever n (p n)
    let read {γ : Type} (c : Computation R W γ) := Program.reading (Source.performing Translator.id) View.look false c w
    (∀ (β : Type) (n : Nat), ∃ met halt v, ∀ {γ : Type} (q : Computation R W γ), Program.Begins (endless β n) q →
      read q = (met,.error halt,v) ∧ trace q w = (Program.asked met,.error (halt.failure "runTrampoline"),v)) ∧
    (∀ (β : Type) (x : Trace (Action W) W β), Comes (endless β) w x ↔
      ∃ k ops u ops' e v, Executions p k w ops u ∧ Comes p u (ops',.error e,v) ∧ x = (ops ++ ops',.error e,v)) ∧
    ((∀ k, ∃ ops u, Executions p k w ops u) →
      ∀ β : Type, ¬ ∃ x v, EndsWith (fun n => (endless β n).execute w) x v) ∧
    ∀ {k ops u}, Executions p k w ops u → Comes (fun n => Program.times k (p n)) w (ops,.ok (),u) ∧
      ∀ β : Type, ∀ᶠ n in atTop, ∀ m, trace (Program.forever (k + m) (p n) : Computation R W β) w =
        (trace (Program.forever m (p n) : Computation R W β) u).after ops := by
  intro endless read
  refine ⟨fun β n => ?_,fun β x => ⟨fun hx => ?_,?_⟩,fun hruns β => ?_,
    fun h => ⟨h.comes_times,fun β => h.trace_forever β⟩⟩
  · obtain ⟨met,halt,v,hloop⟩ := Program.exists_reading_forever (β := β) (Source.performing Translator.id)
      (View.look (W := W)) n (p n) w
    refine ⟨met,halt,v,fun q hq => ?_⟩
    have hread := hq.reading_eq hloop false
    refine ⟨hread,?_⟩
    rw [trace_eq_reading q false w,hread]
    rfl
  · obtain ⟨n,hn⟩ := hx.2.exists
    exact exists_executions hp hn hx.1
  · rintro ⟨k,ops,u,ops',e,v,hexecutions,hlast,rfl⟩
    exact hexecutions.comes_forever hlast β
  · exact not_endsWith_forever hp hruns

/-- A program that counts, and fails at the third execution. -/
theorem forever_ends_by_failure_third :
    let boom : Failure := .error "boom"
    let tick : Action Nat Nat := fun n => if n = 2 then (.error boom,n) else (.ok n,n + 1)
    let p (_ : Nat) : Computation Unit Nat Nat := delay tick
    (∀ n, (p n).Approximates (p (n + 1))) ∧ Executions p 2 0 [⟨Nat,tick⟩,⟨Nat,tick⟩] 2 ∧
      Comes (fun n => (Program.forever n (p n) : Computation Unit Nat Empty)) 0
        ([⟨Nat,tick⟩,⟨Nat,tick⟩,⟨Nat,tick⟩],.error boom,2) ∧
      Comes (fun n => Program.times (2 : Nat) (p n)) 0 ([⟨Nat,tick⟩,⟨Nat,tick⟩],.ok (),2) := by
  intro boom tick p
  have hp : ∀ n, (p n).Approximates (p (n + 1)) := fun n => .refl (p n)
  have htrace : ∀ n w, trace (p n) w = ([⟨Nat,tick⟩],tick w) := fun _ => trace_delay tick
  have hfirst : Comes p 0 ([⟨Nat,tick⟩],.ok 0,1) := ⟨nofun,.of_forall fun n => htrace n 0⟩
  have hsecond : Comes p 1 ([⟨Nat,tick⟩],.ok 1,2) := ⟨nofun,.of_forall fun n => htrace n 1⟩
  have hexecutions : Executions p 2 0 [⟨Nat,tick⟩,⟨Nat,tick⟩] 2 := .next hfirst (.next hsecond (.none 2))
  have hlast : Comes p 2 ([⟨Nat,tick⟩],.error (.error "boom"),2) := ⟨nofun,.of_forall fun n => htrace n 2⟩
  obtain ⟨-,hends,-,hcounted⟩ := forever_ends_by_failure hp 0
  exact ⟨hp,hexecutions,(hends Empty _).mpr ⟨2,_,2,_,boom,2,hexecutions,hlast,rfl⟩,(hcounted hexecutions).1⟩

end Computation

end Effectful
