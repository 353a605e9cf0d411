import Mathlib.Logic.Function.Basic
import MipsAssembler.Proofs.Written

/-!
# Settling the categories at the same time

The four categories can be settled by four jobs that share the symbol table. A job places its
segments, which touches nothing else, and then does its steps on the table one after the other; it
stops at the first that fails. `Jobs.run` is a run of the jobs in which a list of categories says
whose turn it is.

Which labels a job that fails leaves in the table depends on the order of the turns, and so does
which job fails. Whether any of them does is the same for all complete runs, and so is the result of
those in which none does.

* `Jobs.Consistent` is what every state of a run satisfies: a job has done a first part of its steps,
  and the table records what they define.
* `Consistent.failed_cases` gives the reasons for which a job fails. None of them is there if the
  program can be settled at all, and if no job fails, it is (`Jobs.run_failed_iff`).
-/

namespace MipsAssembler

open ByteString Outcome

variable {α : Type}

/-! ## Errors of placement -/

/-- Is the error that segments have no place, or that an entry runs past its window? -/
def AssemblyError.OfPlacement : AssemblyError → Prop
  | .layout .. | .misaligned .. | .entry _ (.overflow ..) => True
  | _ => False

theorem ofPlacement_of_placeSegments [Sized α] {k : Category} {window : Region}
    {segments : List (Segment α)} {e : AssemblyError}
    (h : placeSegments k window segments = .error e) : e.OfPlacement := by
  rcases placeSegments_eq_error h with ⟨start, rfl⟩ | ⟨requests, error, rfl, -, -⟩
  · trivial
  · trivial

theorem ofPlacement_of_mem_labelActions [Sized α] {k : Category} {window : Region}
    {placed : List (Segment α)} {e : AssemblyError}
    (h : .fail e ∈ labelActions k window placed) : e.OfPlacement := by
  obtain ⟨line, start, rfl⟩ := fail_mem_labelActions h
  trivial

/-! ## Jobs -/

/-- How far the job of a category has come: its segments wait for their places, or they have them and
some steps on the table are left, or it has failed. -/
inductive Job (α : Type) where
  | waiting (segments : List (Segment α))
  | labelling (placed : List (Segment α)) (rest : List LabelAction)
  | failed (error : AssemblyError)
  deriving DecidableEq

namespace Job

/-- One turn of a job, on the table that it finds. -/
def step [Sized α] (k : Category) (window : Region) (t : SymbolTable) : Job α → Job α × SymbolTable
  | waiting segments =>
    match placeSegments k window segments with
    | .ok placed => (labelling placed (labelActions k window placed), t)
    | .error e => (failed e, t)
  | labelling placed (action :: rest) =>
    match action.perform t with
    | .ok _ t' => (labelling placed rest, t')
    | .error e t' => (failed e, t')
  | labelling placed [] => (labelling placed [], t)
  | failed e => (failed e, t)

/-- Is there nothing left to do? -/
def Ended : Job α → Prop
  | waiting _ => False
  | labelling _ rest => rest = []
  | failed _ => True

instance : (j : Job α) → Decidable j.Ended
  | waiting _ => .isFalse id
  | labelling _ rest => inferInstanceAs (Decidable (rest = []))
  | failed _ => .isTrue trivial

/-- The segments of a job that is done, with all addresses. -/
def settled? [Sized α] : Job α → Option (List (Segment α))
  | labelling placed [] => some (placed.map Segment.assign)
  | _ => none

end Job

/-- The jobs of all categories and the table that they share. -/
structure Jobs where
  job : (k : Category) → Job k.Item
  table : SymbolTable := {}

namespace Jobs

/-- All segments wait, and the table is empty. -/
def start (p : Program) : Jobs where
  job k := .waiting (p.segments k)

/-- It is the turn of the job of a category. -/
def step (w : Windows) (s : Jobs) (k : Category) : Jobs :=
  let next := (s.job k).step k (w.region k) s.table
  { job := Function.update s.job k next.1, table := next.2 }

/-- The jobs take turns. -/
def run (w : Windows) (s : Jobs) (schedule : List Category) : Jobs := schedule.foldl (step w) s

/-- All jobs have come to their end. -/
def Complete (s : Jobs) : Prop := ∀ k, (s.job k).Ended

/-- Some job has failed. -/
def Failed (s : Jobs) : Prop := ∃ k e, s.job k = .failed e

/-- Some job has failed because its segments have no place or run past their window. -/
def Misplaced (s : Jobs) : Prop := ∃ k e, s.job k = .failed e ∧ e.OfPlacement

/-- All jobs are done, and this is what they have done. -/
def Yields (s : Jobs) (q : Program) (t : SymbolTable) : Prop :=
  (∀ k, (s.job k).settled? = some (q.segments k)) ∧ s.table = t

end Jobs

/-- The jobs of a program, after the pseudo instructions are replaced, take turns from the start. -/
def Program.runJobs (w : Windows) (p : Program) (schedule : List Category) : Jobs :=
  (Jobs.start p.expand).run w schedule

/-! ## What a job has done -/

namespace Job

/-- A job on some segments has done the steps `done`, and `logged` is what is defined in the table by
now. A job that could not define a label has met one in the table with a name in common. -/
inductive Follows [Sized α] (k : Category) (window : Region) (segments : List (Segment α))
    (logged : List Definition) : List LabelAction → Job α → Prop
  | waiting : Follows k window segments logged [] (.waiting segments)
  | misplaced {e : AssemblyError} (place : placeSegments k window segments = .error e) :
    Follows k window segments logged [] (.failed e)
  | labelling {placed : List (Segment α)} {done rest : List LabelAction}
    (place : placeSegments k window segments = .ok placed)
    (steps : labelActions k window placed = done ++ rest) (fits : ∀ e, .fail e ∉ done) :
    Follows k window segments logged done (.labelling placed rest)
  | overflown {placed : List (Segment α)} {done rest : List LabelAction} {e : AssemblyError}
    (place : placeSegments k window segments = .ok placed)
    (steps : labelActions k window placed = done ++ .fail e :: rest) :
    Follows k window segments logged done (.failed e)
  | redefined {placed : List (Segment α)} {done rest : List LabelAction} {n : ByteString}
    {a : UInt32} {line : Int} {d : Definition}
    (place : placeSegments k window segments = .ok placed)
    (steps : labelActions k window placed = done ++ .define n a line :: rest)
    (mem : d ∈ logged) (clash : ¬NamesApart d.name n) :
    Follows k window segments logged done (.failed (.entry line (.redefinition ⟨n⟩)))

variable [Sized α] {k : Category} {window : Region} {segments : List (Segment α)}
  {logged logged' : List Definition} {done : List LabelAction} {j : Job α}

theorem Follows.mono (h : j.Follows k window segments logged done) (hsub : logged ⊆ logged') :
    j.Follows k window segments logged' done := by
  cases h with
  | waiting => exact .waiting
  | misplaced place => exact .misplaced place
  | labelling place steps fits => exact .labelling place steps fits
  | overflown place steps => exact .overflown place steps
  | redefined place steps mem clash => exact .redefined place steps (hsub mem) clash

/-- A turn of a job does one more step, or none, and the table records what it defines. -/
theorem Follows.step (h : j.Follows k window segments logged done) {t : SymbolTable}
    (ht : t.Records logged) :
    ∃ new, (j.step k window t).2.Records (logged ++ definitions new) ∧
      (j.step k window t).1.Follows k window segments (logged ++ definitions new) (done ++ new) := by
  have hquiet {done : List LabelAction} {j j' : Job α} (hstep : j.step k window t = (j', t))
      (hj : j'.Follows k window segments logged done) :
      ∃ new, (j.step k window t).2.Records (logged ++ definitions new) ∧
        (j.step k window t).1.Follows k window segments (logged ++ definitions new) (done ++ new) :=
    ⟨[], by simpa [hstep, definitions] using ⟨ht, hj⟩⟩
  cases h with
  | waiting =>
    cases hp : placeSegments k window segments with
    | ok placed =>
      exact hquiet (by simp only [Job.step, hp]) (.labelling hp (List.nil_append _).symm (by simp))
    | error e => exact hquiet (by simp only [Job.step, hp]) (.misplaced hp)
  | misplaced place => exact hquiet rfl (.misplaced place)
  | overflown place steps => exact hquiet rfl (.overflown place steps)
  | redefined place steps mem clash => exact hquiet rfl (.redefined place steps mem clash)
  | @labelling placed _ rest place steps fits =>
    cases rest with
    | nil => exact hquiet rfl (.labelling place steps fits)
    | cons action rest =>
      cases action with
      | fail e => exact hquiet rfl (.overflown place steps)
      | define n a line =>
        cases hn : (LabelAction.define n a line).perform t with
        | ok _ t' =>
          refine ⟨[.define n a line], ?_⟩
          simp only [Job.step, hn]
          refine ⟨ht.defineSplit_eq_ok.1 (LabelAction.perform_define_eq_ok.1 hn), ?_⟩
          refine .labelling place (by simp [steps]) fun e he => ?_
          simp [fits] at he
        | error e t' =>
          -- the table that the failed step leaves is the one that it found
          obtain ⟨r, hr, rfl⟩ := LabelAction.perform_define_eq_error.1 hn
          obtain ⟨⟨d, hd, hclash⟩, rfl, rfl⟩ := ht.defineSplit_eq_error.1 hr
          exact hquiet (by simp only [Job.step, hn]) (.redefined place steps hd hclash)

theorem names_sublist_of_steps {placed : List (Segment α)} {rest : List LabelAction}
    (place : placeSegments k window segments = .ok placed)
    (steps : labelActions k window placed = done ++ rest) :
    ((definitions done).map (·.name)).Sublist (labelsIn segments) := by
  have hall := names_labelActions_sublist k window placed
  rw [steps, definitions_append, List.map_append, labelsIn_placeSegments place] at hall
  exact (List.sublist_append_left ..).trans hall

theorem Follows.names_sublist (h : j.Follows k window segments logged done) :
    ((definitions done).map (·.name)).Sublist (labelsIn segments) := by
  cases h with
  | waiting => exact List.nil_sublist _
  | misplaced place => exact List.nil_sublist _
  | labelling place steps fits => exact names_sublist_of_steps place steps
  | overflown place steps => exact names_sublist_of_steps place steps
  | redefined place steps mem clash => exact names_sublist_of_steps place steps

theorem Follows.steps_done {placed : List (Segment α)}
    (h : (Job.labelling placed []).Follows k window segments logged done) :
    placeSegments k window segments = .ok placed ∧ labelActions k window placed = done ∧
      ∀ e, .fail e ∉ done := by
  cases h with
  | labelling place steps fits => exact ⟨place, by simpa using steps, fits⟩

/-- Why a job fails: there is no place for its segments, or an entry does not fit, or a label has a
name in common with one that is defined. -/
theorem Follows.failed_cases {e : AssemblyError}
    (h : (Job.failed e).Follows k window segments logged done) :
    placeSegments k window segments = .error e ∨
      (∃ placed, placeSegments k window segments = .ok placed ∧
        .fail e ∈ labelActions k window placed) ∨
      ∃ placed n a line rest, e = .entry line (.redefinition ⟨n⟩) ∧
        placeSegments k window segments = .ok placed ∧
        labelActions k window placed = done ++ .define n a line :: rest ∧
        ∃ d ∈ logged, ¬NamesApart d.name n := by
  cases h with
  | misplaced place => exact .inl place
  | overflown place steps => exact .inr (.inl ⟨_, place, by simp [steps]⟩)
  | redefined place steps mem clash =>
    exact .inr (.inr ⟨_, _, _, _, _, rfl, place, steps, _, mem, clash⟩)

end Job

/-! ## Runs -/

/-- If one of several lists grows at its end, so does what they make up together, up to order. -/
theorem flatMap_perm_append {ι β : Type} {l : List ι} (hl : l.Nodup) {i : ι} (hi : i ∈ l)
    {f g : ι → List β} {new : List β} (hsame : ∀ j, j ≠ i → g j = f j) (hgrown : g i = f i ++ new) :
    (l.flatMap g).Perm (l.flatMap f ++ new) := by
  obtain ⟨before, after, rfl⟩ := List.append_of_mem hi
  obtain ⟨-, hafter, hbefore⟩ := List.nodup_append.1 hl
  have hb : before.flatMap g = before.flatMap f :=
    List.flatMap_congr fun j hj => hsame j (hbefore j hj i (by simp))
  have ha : after.flatMap g = after.flatMap f := by
    refine List.flatMap_congr fun j hj => hsame j ?_
    rintro rfl
    exact (List.nodup_cons.1 hafter).1 hj
  simp only [List.flatMap_append, List.flatMap_cons, hb, ha, hgrown, List.append_assoc]
  exact (List.perm_append_comm.append_left _).append_left _

theorem Category.nodup_all : Category.all.Nodup := by decide

namespace Jobs

variable {w : Windows} {p q : Program} {t : SymbolTable} {s s' : Jobs}
  {done : Category → List LabelAction}

/-- All definitions among the steps that are done. -/
def logged (done : Category → List LabelAction) : List Definition :=
  Category.all.flatMap fun k => definitions (done k)

/-- The jobs of a program have done the steps `done`, and the table records what these define. -/
structure Consistent (w : Windows) (p : Program) (done : Category → List LabelAction) (s : Jobs) :
    Prop where
  follows : ∀ k, (s.job k).Follows k (w.region k) (p.segments k) (logged done) (done k)
  records : s.table.Records (logged done)

theorem consistent_start (w : Windows) (p : Program) : Consistent w p (fun _ => []) (start p) where
  follows _ := .waiting
  records := SymbolTable.records_empty

theorem logged_update (done : Category → List LabelAction) (k : Category) (new : List LabelAction) :
    (logged (Function.update done k (done k ++ new))).Perm (logged done ++ definitions new) := by
  refine flatMap_perm_append Category.nodup_all k.mem_all (fun k' hk' => ?_) ?_
  · rw [Function.update_of_ne hk']
  · rw [Function.update_self, definitions_append]

/-- Every turn leads from a consistent state to a consistent state. -/
theorem Consistent.step (h : Consistent w p done s) (k : Category) :
    ∃ done', Consistent w p done' (s.step w k) := by
  obtain ⟨new, hrec, hfollows⟩ := (h.follows k).step h.records
  have hperm := logged_update done k new
  refine ⟨Function.update done k (done k ++ new), fun k' => ?_, hrec.perm hperm.symm⟩
  by_cases hk : k' = k
  · subst hk
    simp only [Jobs.step, Function.update_self]
    exact hfollows.mono hperm.symm.subset
  · simp only [Jobs.step, Function.update_of_ne hk]
    exact (h.follows k').mono fun d hd => hperm.symm.subset (List.mem_append_left _ hd)

theorem Consistent.run (h : Consistent w p done s) (schedule : List Category) :
    ∃ done', Consistent w p done' (s.run w schedule) := by
  induction schedule generalizing s done with
  | nil => exact ⟨done, h⟩
  | cons k schedule ih =>
    obtain ⟨done', h'⟩ := h.step k
    exact ih h'

/-- Every run of the jobs of a program leads to a consistent state. -/
theorem exists_consistent (w : Windows) (p : Program) (schedule : List Category) :
    ∃ done, Consistent w p.expand done (p.runJobs w schedule) :=
  (consistent_start w p.expand).run schedule

/-- If no job has failed at the end, the program is settled. -/
theorem Consistent.settles (h : Consistent w p done s) (hcomplete : s.Complete)
    (hok : ¬s.Failed) :
    ∃ placed, Settles w p placed s.table ∧ ∀ k, s.job k = .labelling (placed k) [] := by
  have hall : ∀ k, ∃ placed, s.job k = .labelling placed [] := by
    intro k
    have hend := hcomplete k
    cases hjob : s.job k with
    | waiting segments => simp [hjob, Job.Ended] at hend
    | failed e => exact absurd ⟨k, e, hjob⟩ hok
    | labelling placed rest =>
      obtain rfl : rest = [] := by simpa [hjob, Job.Ended] using hend
      exact ⟨placed, rfl⟩
  choose placed hplaced using hall
  have hfollows : ∀ k, placeSegments k (w.region k) (p.segments k) = .ok (placed k) ∧
      labelActions k (w.region k) (placed k) = done k ∧ ∀ e, .fail e ∉ done k := by
    intro k
    have hk := h.follows k
    rw [hplaced k] at hk
    exact hk.steps_done
  have hfits : ∀ k e, .fail e ∉ labelActions k (w.region k) (placed k) := by
    intro k
    rw [(hfollows k).2.1]
    exact (hfollows k).2.2
  refine ⟨placed, ⟨fun k => (hfollows k).1, hfits, ?_⟩, hplaced⟩
  have hrec := h.records
  simpa only [logged, ← fun k => (hfollows k).2.1, fun k => definitions_labelActions (hfits k)]
    using hrec

/-- Why a job fails: there is no place for its segments, or an entry does not fit, or a name comes
with two labels of the program. -/
theorem Consistent.failed_cases (h : Consistent w p done s) {k : Category} {e : AssemblyError}
    (hk : s.job k = .failed e) :
    placeSegments k (w.region k) (p.segments k) = .error e ∨
      (∃ placed, placeSegments k (w.region k) (p.segments k) = .ok placed ∧
        .fail e ∈ labelActions k (w.region k) placed) ∨
      (∃ line n, e = .entry line (.redefinition ⟨n⟩)) ∧ ¬p.labels.Pairwise NamesApart := by
  have hfollows := h.follows k
  rw [hk] at hfollows
  rcases hfollows.failed_cases with
    hplace | hfit | ⟨placed, n, a, line, rest, herror, place, steps, d, mem, clash⟩
  · exact .inl hplace
  · exact .inr (.inl hfit)
  refine .inr (.inr ⟨⟨line, n, herror⟩, fun hapart => clash ?_⟩)
  -- all that was defined, and the label that could not be, are labels of the program
  have hnames : ((logged (Function.update done k (done k ++ [.define n a line]))).map
      (·.name)).Sublist p.labels := by
    rw [logged, List.map_flatMap]
    refine List.Sublist.flatMap_right _ fun k' _ => ?_
    by_cases hk' : k' = k
    · subst hk'
      rw [Function.update_self]
      have hsteps : labelActions k' (w.region k') placed =
          (done k' ++ [.define n a line]) ++ rest := by simp [steps]
      exact Job.names_sublist_of_steps place hsteps
    · rw [Function.update_of_ne hk']
      exact (h.follows k').names_sublist
  have hpairs := (((logged_update done k [.define n a line]).map (·.name)).pairwise
    (hapart.sublist hnames)) fun h => h.symm
  exact (SymbolTable.Records.apart_concat_iff.1 hpairs).2 d mem

/-! ## Complete runs -/

theorem job_step_of_ne {k k' : Category} (h : k' ≠ k) : (s.step w k).job k' = s.job k' :=
  Function.update_of_ne h ..

theorem job_step_self (k : Category) :
    (s.step w k).job k = ((s.job k).step k (w.region k) s.table).1 := Function.update_self ..

theorem ended_step {k : Category} (h : (s.job k).Ended) (k' : Category) :
    ((s.step w k').job k).Ended := by
  by_cases hk : k = k'
  · subst hk
    rw [job_step_self]
    cases hjob : s.job k with
    | waiting segments => simp [hjob, Job.Ended] at h
    | failed e => trivial
    | labelling placed rest =>
      obtain rfl : rest = [] := by simpa [hjob, Job.Ended] using h
      rfl
  · rw [job_step_of_ne hk]
    exact h

theorem ended_run {k : Category} (h : (s.job k).Ended) (schedule : List Category) :
    ((s.run w schedule).job k).Ended := by
  induction schedule generalizing s with
  | nil => exact h
  | cons k' schedule ih => exact ih (ended_step h k')

/-- A job that gets enough turns comes to its end. -/
theorem exists_ended (w : Windows) (s : Jobs) (k : Category) :
    ∃ schedule, ((s.run w schedule).job k).Ended := by
  -- one turn per step that is left
  have hlabelling (rest : List LabelAction) : ∀ (s : Jobs) placed, s.job k = .labelling placed rest →
      ∃ schedule, ((s.run w schedule).job k).Ended := by
    induction rest with
    | nil => exact fun s placed hjob => ⟨[], by simp [run, hjob, Job.Ended]⟩
    | cons action rest ih =>
      intro s placed hjob
      cases hstep : action.perform s.table with
      | ok _ t' =>
        obtain ⟨schedule, h⟩ := ih (s.step w k) placed
          (by simp only [job_step_self, hjob, Job.step, hstep])
        exact ⟨k :: schedule, h⟩
      | error e t' =>
        refine ⟨[k], ?_⟩
        simp only [run, List.foldl_cons, List.foldl_nil, job_step_self, hjob, Job.step, hstep,
          Job.Ended]
  cases hjob : s.job k with
  | failed e => exact ⟨[], by simp [run, hjob, Job.Ended]⟩
  | labelling placed rest => exact hlabelling rest s placed hjob
  | waiting segments =>
    cases hplace : placeSegments k (w.region k) segments with
    | ok placed =>
      obtain ⟨schedule, h⟩ := hlabelling (labelActions k (w.region k) placed) (s.step w k) placed
        (by simp only [job_step_self, hjob, Job.step, hplace])
      exact ⟨k :: schedule, h⟩
    | error e =>
      refine ⟨[k], ?_⟩
      simp only [run, List.foldl_cons, List.foldl_nil, job_step_self, hjob, Job.step, hplace, Job.Ended]

/-- Every run can be continued to a complete one. -/
theorem exists_complete (w : Windows) (s : Jobs) : ∃ schedule, (s.run w schedule).Complete := by
  have hsome (ks : List Category) : ∃ schedule, ∀ k ∈ ks, ((s.run w schedule).job k).Ended := by
    induction ks with
    | nil => exact ⟨[], by simp⟩
    | cons k ks ih =>
      obtain ⟨schedule, hks⟩ := ih
      obtain ⟨rest, hk⟩ := exists_ended w (s.run w schedule) k
      refine ⟨schedule ++ rest, ?_⟩
      rw [run, List.foldl_append]
      refine List.forall_mem_cons.2 ⟨hk, fun k' hk' => ended_run (hks k' hk') rest⟩
  obtain ⟨schedule, h⟩ := hsome Category.all
  exact ⟨schedule, fun k => h k k.mem_all⟩

/-- A complete run fails exactly if settling the categories one after the other does. -/
theorem Consistent.failed_iff (h : Consistent w p done s) (hcomplete : s.Complete) :
    s.Failed ↔ ∃ e, p.settle w = .error e := by
  constructor
  · rintro ⟨k, e, hk⟩
    cases hsettle : p.settle w with
    | error e' => exact ⟨e', rfl⟩
    | ok r =>
      obtain ⟨placed, hsettles, -⟩ := Program.settle_eq_ok.1 hsettle
      rcases h.failed_cases hk with hplace | ⟨placed', hplace, hfail⟩ | ⟨-, hclash⟩
      · simp [hsettles.place k] at hplace
      · obtain rfl : placed k = placed' := Except.ok.inj ((hsettles.place k).symm.trans hplace)
        exact absurd hfail (hsettles.fits k e)
      · exact absurd hsettles.apart hclash
  · rintro ⟨e, he⟩
    by_contra hok
    obtain ⟨placed, hsettles, -⟩ := h.settles hcomplete hok
    simp [hsettles.settle_eq_ok] at he

/-- Where no job fails for want of a place, one fails exactly if a name comes with two labels. -/
theorem Consistent.failed_iff_clash (h : Consistent w p done s) (hcomplete : s.Complete)
    (hplace : ¬s.Misplaced) : s.Failed ↔ ¬p.labels.Pairwise NamesApart := by
  constructor
  · rintro ⟨k, e, hk⟩
    rcases h.failed_cases hk with herror | ⟨placed, -, hfail⟩ | ⟨-, hclash⟩
    · exact absurd ⟨k, e, hk, ofPlacement_of_placeSegments herror⟩ hplace
    · exact absurd ⟨k, e, hk, ofPlacement_of_mem_labelActions hfail⟩ hplace
    · exact hclash
  · intro hclash
    by_contra hok
    obtain ⟨placed, hsettles, -⟩ := h.settles hcomplete hok
    exact hclash hsettles.apart

/-- A complete run that does not fail ends with what settling the program gives. -/
theorem Consistent.yields_iff (h : Consistent w p done s) (hcomplete : s.Complete)
    (hok : ¬s.Failed) : s.Yields q t ↔ p.settle w = .ok (q, t) := by
  obtain ⟨placed, hsettles, hjob⟩ := h.settles hcomplete hok
  rw [Program.settle_eq_ok]
  simp only [Yields, hjob, Job.settled?, Option.some.injEq]
  constructor
  · rintro ⟨hq, rfl⟩
    exact ⟨placed, hsettles, fun k => (hq k).symm⟩
  · rintro ⟨placed', hsettles', hq⟩
    obtain ⟨rfl, rfl⟩ := hsettles.unique hsettles'
    exact ⟨fun k => (hq k).symm, rfl⟩

/-- **The order of the turns does not matter.** Every run can be completed. Of two complete runs either
both fail, and then so does settling the categories one after the other, or neither, and then all
three give the same addresses and the same table. Where no job fails for want of a place, one fails
exactly if a name comes with two labels of the program, that is, in a program that is read from a
source, if a label occurs twice. -/
theorem run_outcome (w : Windows) (p : Program) :
    (∀ schedule, ∃ rest, (p.runJobs w (schedule ++ rest)).Complete) ∧
    ∀ schedule schedule', (p.runJobs w schedule).Complete → (p.runJobs w schedule').Complete →
      ((p.runJobs w schedule).Failed ∧ (p.runJobs w schedule').Failed ∧
          (∃ e, p.expand.settle w = .error e) ∨
        ¬(p.runJobs w schedule).Failed ∧ ¬(p.runJobs w schedule').Failed ∧
          ∃ q t, (p.runJobs w schedule).Yields q t ∧ (p.runJobs w schedule').Yields q t ∧
            p.expand.settle w = .ok (q, t)) ∧
      (¬(p.runJobs w schedule).Misplaced →
        ((p.runJobs w schedule).Failed ↔ ¬p.labels.Pairwise NamesApart) ∧
        ∀ src, Program.parse src = .ok p →
          ((p.runJobs w schedule).Failed ↔ ¬p.labels.Nodup)) := by
  have hrun := exists_consistent w p
  refine ⟨fun schedule => ?_, fun schedule schedule' hcomplete hcomplete' => ⟨?_, fun hplace => ?_⟩⟩
  · obtain ⟨rest, h⟩ := exists_complete w (p.runJobs w schedule)
    refine ⟨rest, ?_⟩
    rwa [Program.runJobs, run, List.foldl_append]
  · obtain ⟨done, h⟩ := hrun schedule
    obtain ⟨done', h'⟩ := hrun schedule'
    have hfailed := h.failed_iff hcomplete
    have hfailed' := h'.failed_iff hcomplete'
    cases hsettle : p.expand.settle w with
    | error e => exact .inl ⟨hfailed.2 ⟨e, hsettle⟩, hfailed'.2 ⟨e, hsettle⟩, e, rfl⟩
    | ok r =>
      have hok : ¬∃ e, p.expand.settle w = .error e := by simp [hsettle]
      have hyields := (h.yields_iff hcomplete (hfailed.not.2 hok)).2 hsettle
      have hyields' := (h'.yields_iff hcomplete' (hfailed'.not.2 hok)).2 hsettle
      exact .inr ⟨hfailed.not.2 hok, hfailed'.not.2 hok, r.1, r.2, hyields, hyields', rfl⟩
  · obtain ⟨done, h⟩ := hrun schedule
    have hclash := h.failed_iff_clash hcomplete hplace
    rw [p.labels_expand] at hclash
    refine ⟨hclash, fun src hsrc => ?_⟩
    rw [hclash, (Program.parse_written hsrc).apart_iff]

/-- A source that defines a label in its text and again in its data. -/
def twiceSource : ByteString := ".text\nmain: nop\nlast: nop\n.data\nlist: .word 1\nmain: .word 2\n"

/-- The program of `twiceSource`. -/
def twiceProgram : Program where
  userText := [{ start := some {}, entries :=
    [{ place := some { labels := ["main"] }, item := .nop, line := 2 },
     { place := some { labels := ["last"] }, item := .nop, line := 3 }] }]
  userData := [{ start := some {}, entries :=
    [{ place := some { labels := ["list"] }, item := .words [1] 0, line := 5 },
     { place := some { labels := ["main"] }, item := .words [2] 0, line := 6 }] }]

/-- The turns that bring the text of `twiceProgram` to its end before its data. -/
def textFirst : List Category :=
  [.text .user, .text .user, .text .user, .text .kernel,
   .data .user, .data .user, .data .user, .data .kernel]

/-- Text first, the data meet a label of the text; data first, the text meets one of the data and the
label after it is not defined at all. Both runs fail. -/
theorem run_outcome_twice :
    Program.parse twiceSource = .ok twiceProgram ∧
    (twiceProgram.runJobs {} textFirst).Complete ∧
    (twiceProgram.runJobs {} textFirst.reverse).Complete ∧
    ¬(twiceProgram.runJobs {} textFirst).Misplaced ∧
    ((twiceProgram.runJobs {} textFirst).table.lookup "last").isSome ∧
    (twiceProgram.runJobs {} textFirst.reverse).table.lookup "last" = none ∧
    (twiceProgram.runJobs {} textFirst).Failed ∧
    (twiceProgram.runJobs {} textFirst.reverse).Failed := by
  have hparse : Program.parse twiceSource = .ok twiceProgram := by decide +kernel
  have hcomplete : (twiceProgram.runJobs {} textFirst).Complete := by
    rintro ((_ | _) | (_ | _)) <;> decide +kernel
  have hcomplete' : (twiceProgram.runJobs {} textFirst.reverse).Complete := by
    rintro ((_ | _) | (_ | _)) <;> decide +kernel
  have hplace : ¬(twiceProgram.runJobs {} textFirst).Misplaced := by
    have hdata : (twiceProgram.runJobs {} textFirst).job (.data .user) =
        .failed (.entry 6 (.redefinition ⟨"main"⟩)) := by decide +kernel
    have hothers : ∀ k, k ≠ .data .user →
        ((twiceProgram.runJobs {} textFirst).job k).settled?.isSome := by
      rintro ((_ | _) | (_ | _)) <;> decide +kernel
    rintro ⟨k, e, hk, he⟩
    by_cases hkind : k = .data .user
    · subst hkind
      obtain rfl := Job.failed.inj (hdata.symm.trans hk)
      exact he
    · simpa [hk, Job.settled?] using hothers k hkind
  have hboth := (run_outcome {} twiceProgram).2 textFirst textFirst.reverse hcomplete hcomplete'
  have hfailed := ((hboth.2 hplace).2 twiceSource hparse).2 (by decide +kernel)
  refine ⟨hparse, hcomplete, hcomplete', hplace, by decide +kernel, by decide +kernel, hfailed, ?_⟩
  rcases hboth.1 with ⟨-, hfailed', -⟩ | ⟨hok, -⟩
  · exact hfailed'
  · exact absurd hfailed hok

end Jobs

end MipsAssembler
