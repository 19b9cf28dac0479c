import Effectful.Program.Loop
import Effectful.Proofs.Program.Interpreter
/-!
# Folds over lists of items

A fold of programs builds the body for an item from what the bodies before it have come to, inside the continuation of
the last of them. Every interpreter runs it as the plain loop over the items. Lists of programs and bodies without an
accumulator are folds, so they are run as plain loops too.
-/
namespace Effectful

universe u v

namespace Run

variable {S W α β : Type} {T : Type v}

theorem bind_eq_ok_iff {m : Run S W α} {f : α → Run S W β} {s v : S} {b : β} :
    (m >>= f) s = .ok (b,v) ↔ ∃ a u, m s = .ok (a,u) ∧ f a u = .ok (b,v) := by
  cases h : m s with
  | error x => simp [bind_of_error h]
  | ok y =>
    obtain ⟨a,u⟩ := y
    simp [bind_of_ok h]

theorem bind_eq_error_iff {m : Run S W α} {f : α → Run S W β} {s : S} {x : Failure × W} :
    (m >>= f) s = .error x ↔ m s = .error x ∨ ∃ a u, m s = .ok (a,u) ∧ f a u = .error x := by
  cases h : m s with
  | error x => simp [bind_of_error h]
  | ok y =>
    obtain ⟨a,u⟩ := y
    simp [bind_of_ok h]

@[simp] theorem pure_eq_ok_iff {a b : α} {s v : S} : (pure a : Run S W α) s = .ok (b,v) ↔ a = b ∧ s = v := by
  simp [pure_apply]

@[simp] theorem pure_ne_error {a : α} {s : S} {x : Failure × W} : (pure a : Run S W α) s ≠ .error x := by
  simp [pure_apply]

/-- A loop fails where its body fails for one of the items, after the loop over the items before. -/
theorem foldlM_eq_error_iff {step : β → T → Run S W β} {items : List T} {acc : β} {s : S} {x : Failure × W} :
    items.foldlM step acc s = .error x ↔ ∃ before item after b u,
      items = before ++ item :: after ∧ before.foldlM step acc s = .ok (b,u) ∧ step b item u = .error x := by
  induction items generalizing acc s with
  | nil => simp
  | cons first items ih =>
    rw [List.foldlM_cons,bind_eq_error_iff]
    constructor
    · rintro (hfirst | ⟨b,u,hfirst,hrest⟩)
      · exact ⟨[],first,items,acc,s,rfl,by simp,hfirst⟩
      · obtain ⟨before,item,after,b',u',rfl,hbefore,hitem⟩ := ih.mp hrest
        refine ⟨first :: before,item,after,b',u',rfl,?_,hitem⟩
        rw [List.foldlM_cons,bind_eq_ok_iff]
        exact ⟨b,u,hfirst,hbefore⟩
    · rintro ⟨before,item,after,b,u,hitems,hbefore,hitem⟩
      cases before with
      | nil =>
        obtain ⟨rfl,rfl⟩ := List.cons.inj hitems
        obtain ⟨rfl,rfl⟩ := pure_eq_ok_iff.mp hbefore
        exact .inl hitem
      | cons first' before =>
        obtain ⟨rfl,rfl⟩ := List.cons.inj hitems
        obtain ⟨b',u',hfirst,hrest⟩ := bind_eq_ok_iff.mp hbefore
        exact .inr ⟨b',u',hfirst,ih.mpr ⟨before,item,after,b,u,rfl,hrest,hitem⟩⟩

theorem map_eq_ok_iff {m : Run S W α} {f : α → β} {s v : S} {b : β} :
    (f <$> m) s = .ok (b,v) ↔ ∃ a, m s = .ok (a,v) ∧ f a = b := by
  rw [map_eq_pure_bind,bind_eq_ok_iff]
  simp only [pure_eq_ok_iff]
  grind

theorem map_eq_error_iff {m : Run S W α} {f : α → β} {s : S} {x : Failure × W} :
    (f <$> m) s = .error x ↔ m s = .error x := by
  rw [map_eq_pure_bind,bind_eq_error_iff]
  simp

theorem mapM_eq_error_iff {f : T → Run S W α} {items : List T} {s : S} {x : Failure × W} :
    items.mapM f s = .error x ↔ ∃ before item after results u,
      items = before ++ item :: after ∧ before.mapM f s = .ok (results,u) ∧ f item u = .error x := by
  simp only [List.mapM_eq_reverse_foldlM_cons,map_eq_error_iff,map_eq_ok_iff,foldlM_eq_error_iff]
  constructor
  · rintro ⟨before,item,after,results,u,hitems,hbefore,hitem⟩
    exact ⟨before,item,after,results.reverse,u,hitems,⟨results,hbefore,rfl⟩,hitem⟩
  · rintro ⟨before,item,after,_,u,hitems,⟨results,hbefore,-⟩,hitem⟩
    exact ⟨before,item,after,results,u,hitems,hbefore,hitem⟩

end Run

namespace Interpreter

open Program

variable {F : Type → Type u} {W S T α β : Type} [View W Unit] (M : Interpreter F W S)

theorem run_fold (items : List T) (initial : β) (f : β → T → Unit → Outcome (Program Unit F β)) :
    M.run (ofOutcome (fold items initial f ())) =
      items.foldlM (fun acc item => M.run (ofOutcome (f acc item ()))) initial := by
  induction items generalizing initial with
  | nil => exact M.run_done initial
  | cons item items ih =>
    rw [fold,run_ofOutcome_bind,List.foldlM_cons]
    simp only [ih]

theorem run_collect (results : List α) (programs : List (Program Unit F α)) :
    M.run (collect results programs) = (results ++ ·) <$> programs.mapM M.run := by
  induction programs generalizing results with
  | nil => simp [collect]
  | cons p programs ih => simp [collect,ih]

theorem run_all (programs : List (Program Unit F α)) : M.run (all programs) = programs.mapM M.run := by
  simp [all,run_collect]

theorem run_forEach (items : List T) (g : T → Program Unit F α) :
    M.run (ofOutcome (forEach items (fun item _ => .ok (g item)) ())) =
      (fun _ => ()) <$> (items.map g).mapM M.run := by
  rw [forEach,run_fold]
  induction items with
  | nil => simp
  | cons item items ih =>
    simp only [List.foldlM_cons,List.map_cons,List.mapM_cons,map_bind,map_pure]
    simp only [Outcome.map_ok,ofOutcome,skip,run_map,bind_map_left] at ih ⊢
    rw [ih]
    simp

/-- The programs answer one after the other, from the state `s` up to the state `v`: each is run from the state that
the one before it has left, and the list holds its answer at its place. -/
def Answers (programs : List (Program Unit F α)) (s : S) (results : List α) (v : S) : Prop :=
  results.length = programs.length ∧ ∃ state : Nat → S, state 0 = s ∧ state programs.length = v ∧
    ∀ i p a, programs[i]? = some p → results[i]? = some a → M.run p (state i) = .ok (a,state (i + 1))

theorem answers_nil {s v : S} {results : List α} : M.Answers [] s results v ↔ [] = results ∧ s = v := by
  constructor
  · rintro ⟨hlength,state,rfl,rfl,-⟩
    exact ⟨(List.eq_nil_of_length_eq_zero hlength).symm,rfl⟩
  · rintro ⟨rfl,rfl⟩
    exact ⟨rfl,fun _ => s,rfl,rfl,by simp⟩

theorem answers_cons {p : Program Unit F α} {programs : List (Program Unit F α)} {s v : S} {results : List α} :
    M.Answers (p :: programs) s results v ↔
      ∃ a u rest, M.run p s = .ok (a,u) ∧ M.Answers programs u rest v ∧ a :: rest = results := by
  constructor
  · rintro ⟨hlength,state,rfl,rfl,hstate⟩
    cases results with
    | nil => simp at hlength
    | cons a rest =>
      refine ⟨a,state 1,rest,hstate 0 p a rfl rfl,⟨by simpa using hlength,fun i => state (i + 1),rfl,rfl,?_⟩,rfl⟩
      intro i q b hq hb
      exact hstate (i + 1) q b (by simpa using hq) (by simpa using hb)
  · rintro ⟨a,u,rest,hp,⟨hlength,state,rfl,rfl,hstate⟩,rfl⟩
    refine ⟨by simp [hlength],fun i => i.casesOn s state,rfl,rfl,?_⟩
    intro i q b hq hb
    cases i with
    | zero =>
      obtain rfl : p = q := by simpa using hq
      obtain rfl : a = b := by simpa using hb
      exact hp
    | succ i => exact hstate i q b (by simpa using hq) (by simpa using hb)

theorem mapM_eq_ok_iff {programs : List (Program Unit F α)} {s v : S} {results : List α} :
    programs.mapM M.run s = .ok (results,v) ↔ M.Answers programs s results v := by
  induction programs generalizing s v results with
  | nil => simp [answers_nil]
  | cons p programs ih =>
    simp only [List.mapM_cons,Run.bind_eq_ok_iff,Run.pure_eq_ok_iff,ih,answers_cons]
    constructor
    · rintro ⟨a,u,hp,rest,_,hrest,rfl,rfl⟩
      exact ⟨a,u,rest,hp,hrest,rfl⟩
    · rintro ⟨a,u,rest,hp,hrest,rfl⟩
      exact ⟨a,u,hp,rest,v,hrest,rfl,rfl⟩

theorem run_all_append (ps qs : List (Program Unit F α)) :
    M.run (all (ps ++ qs)) = M.run ((product (all ps) (all qs)).map fun x => x.1 ++ x.2) := by
  simp [run_all,product]

end Interpreter

namespace Program

variable {F : Type → Type u} {W S T α β : Type} [View W Unit]

/-- A fold is the plain loop over its items, under every interpreter. It fails where the body for an item cannot be
built or fails, after the fold over the items before, whatever items come after; and to fold two lists is to fold one
after the other. A list of programs is run in its order and answers their results in that order, and two such lists
are run one after the other. A loop whose body is always built does what the list of its bodies does, and answers
nothing. -/
theorem fold_is_loop (M : Interpreter F W S) (f : β → T → Unit → Outcome (Program Unit F β))
    (g : T → Program Unit F α) :
    let body acc item := M.run (ofOutcome (f acc item ()))
    let folded items initial := M.run (ofOutcome (fold items initial f ()))
    (∀ items initial, folded items initial = items.foldlM body initial) ∧
      (∀ items initial s e w, folded items initial s = .error (e,w) ↔ ∃ before item after acc u,
        items = before ++ item :: after ∧ folded before initial s = .ok (acc,u) ∧ body acc item u = .error (e,w)) ∧
      (∀ xs ys initial, folded (xs ++ ys) initial = M.run (ofOutcome
        ((fold xs initial f ()).map fun p => bind p fun acc r => ofOutcome (fold ys acc f r)))) ∧
      (∀ ps : List (Program Unit F α), M.run (all ps) = ps.mapM M.run) ∧
      (∀ (ps : List (Program Unit F α)) s results v,
        M.run (all ps) s = .ok (results,v) ↔ M.Answers ps s results v) ∧
      (∀ ps qs : List (Program Unit F α),
        M.run (all (ps ++ qs)) = M.run ((product (all ps) (all qs)).map fun x => x.1 ++ x.2)) ∧
      ∀ items,
        M.run (ofOutcome (forEach items (fun item _ => .ok (g item)) ())) = M.run (skip (all (items.map g))) := by
  intro body folded
  have hfolded : ∀ items initial, folded items initial = items.foldlM body initial :=
    fun items initial => M.run_fold items initial f
  refine ⟨hfolded,?_,?_,M.run_all,?_,M.run_all_append,?_⟩
  · intro items initial s e w
    simp only [hfolded]
    exact Run.foldlM_eq_error_iff
  · intro xs ys initial
    rw [M.run_ofOutcome_bind,hfolded,List.foldlM_append]
    have hsecond : ∀ acc, M.run (ofOutcome (fold ys acc f ())) = ys.foldlM body acc := hfolded ys
    simp only [hsecond]
    exact congrArg (· >>= _) (hfolded xs initial).symm
  · intro ps s results v
    rw [M.run_all,M.mapM_eq_ok_iff]
  · intro items
    rw [M.run_forEach,skip,M.run_map,M.run_all]

end Program

end Effectful
