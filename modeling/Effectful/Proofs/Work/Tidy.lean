import Effectful.Proofs.Work.Finish
/-!
# Callbacks that are called again

Whoever registers a callback may call it more than once, and only the first call counts. If the others do nothing
else, work has done whatever it does to the world by the time it answers.
-/
namespace Effectful

variable {R W α β γ : Type}

/-- The calls that come too late to count, and are made on later turns. -/
def Reply.again : Reply W α → List (W → α × W)
  | ⟨_ :: _,later⟩ => later
  | ⟨[],_ :: later⟩ => later
  | ⟨[],[]⟩ => []

/-- Calls that do not count leave the world as it is. -/
def Reply.Plain (reply : Reply W α) : Prop := ∀ answer ∈ reply.again, ∀ w, (answer w).2 = w

/-- All callbacks of the work get plain replies. -/
def Work.Tidy {α : Type} : Work R W α → Prop
  | .answer _ | .reject _ | .delay _ => True
  | .fork work => Tidy work
  | .callback register => ∀ w reply, (register w).1 = .ok reply → reply.Plain
  | .andThen work f => Tidy work ∧ ∀ b r, Tidy (f b r)
  | .both left right _ => Tidy left ∧ Tidy right

private theorem plain_of_mem {later : List (W → α × W)} (h : ∀ answer ∈ later, ∀ w, (answer w).2 = w)
    {late : Multiset (Deed W)} {s : Multiset (W → W)} (hlate : late.map Deed.effect + s = Reply.effects later) :
    ∀ g ∈ s, ∀ w, g w = w := by
  intro g hg w
  have hmem : g ∈ Reply.effects later := hlate ▸ Multiset.mem_add.mpr (.inr hg)
  obtain ⟨answer,hanswer,rfl⟩ := List.mem_map.mp (Multiset.mem_coe.mp hmem)
  exact h answer hanswer w

private theorem open_add {s s' : Multiset (W → W)} (h : ∀ g ∈ s, ∀ w, g w = w) (h' : ∀ g ∈ s', ∀ w, g w = w) :
    ∀ g ∈ s + s', ∀ w, g w = w := by
  intro g hg
  rcases Multiset.mem_add.mp hg with hg | hg
  · exact h g hg
  · exact h' g hg

variable [View W R] {work : Work R W α} {d : Multiset (Deed W)} {s : Multiset (W → W)}

namespace Work

theorem Comes.plain {x : Outcome α} (h : work.Comes x d s) (htidy : work.Tidy) : ∀ g ∈ s, ∀ w, g w = w := by
  induction h with
  | answer | reject | delay | callback_failed => exact fun g hg => absurd hg (Multiset.notMem_zero g)
  | fork _ ih => exact ih htidy
  | callback_now hreply hlate => exact plain_of_mem (htidy _ _ hreply) hlate
  | callback_later hreply hlate => exact plain_of_mem (htidy _ _ hreply) hlate
  | andThen u _ _ ihwork ihnext => exact open_add (ihwork htidy.1) (ihnext (htidy.2 _ _))
  | andThen_failed _ ih => exact ih htidy.1
  | both u _ _ ihl ihr => exact open_add (ihl htidy.1) (ihr htidy.2)
  | both_failed _ _ _ ihl ihr => exact open_add (ihl htidy.1) (ihr htidy.2)

theorem Becomes.plain {t : Task R W α} (h : work.Becomes t d s) (htidy : work.Tidy) : ∀ g ∈ s, ∀ w, g w = w := by
  induction h with
  | settled h => exact h.plain htidy
  | asleep | silent => exact fun g hg => absurd hg (Multiset.notMem_zero g)
  | awake _ ih => exact ih htidy
  | listening hreply hlate => exact plain_of_mem (htidy _ _ hreply) hlate
  | chain _ ih => exact ih htidy.1
  | chain_failed _ _ ih => exact ih htidy.1
  | goneOn u hwork _ ih => exact open_add (hwork.plain htidy.1) (ih (htidy.2 _ _))
  | relay _ _ ih => exact ih htidy
  | pair _ _ _ ihl ihr => exact open_add (ihl htidy.1) (ihr htidy.2)
  | pair_failed _ _ _ _ ihl ihr => exact open_add (ihl htidy.1) (ihr htidy.2)

theorem Tidy.concludes (h : work.Tidy) : work.Concludes := by
  intro w a q hsettles
  obtain ⟨t,-,hr,-⟩ := Task.Stack.settles_reaches hsettles
  obtain ⟨ds,-,hwork⟩ := (Executor.accounts_start work w).reaches hr
  have hquiet : q.Quiet := hsettles.quiet (Executor.sound_start work ⟨rfl,List.forall_mem_nil _⟩) rfl
  refine ⟨hquiet.1,fun turn hturn => ⟨hquiet.2 turn hturn,fun w => ?_⟩⟩
  cases turn with
  | resume path => rfl
  | stray g => exact hwork.plain h g (Multiset.mem_coe.mpr (List.mem_filterMap.mpr ⟨_,hturn,rfl⟩)) w

end Work

end Effectful
