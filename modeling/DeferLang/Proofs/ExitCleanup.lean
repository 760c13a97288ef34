import DeferLang.Proofs.Declarations
import DeferLang.Proofs.Numbering
import DeferLang.Proofs.ScheduledPoints
import DeferLang.Token.Scan

/-!
# The cleanup in front of every exit

A source without blocking diagnostics is scheduled, and in the result exactly
the cleanup that an exit asks for stands in front of it.  What an exit asks for
is read off the program around it (`Point.exitCleanup`).
-/

namespace DeferLang

namespace Source

/-- The program of a source. -/
def program (s : Source) : Program :=
  (parseProgram (tokens s.text)).1

/-- What checking learns about the program of a source. -/
def context (s : Source) : Context :=
  s.program.check.1

/-- The diagnostics of a source up to its names and types. -/
def diagnostics (s : Source) : Diagnostics :=
  (scanErrors s.text).map (ScanError.toDiagnostic s) ++
    (parseProgram (tokens s.text)).2.map (ParseError.toDiagnostic s) ++
    s.program.check.2.map (TypingError.toDiagnostic s)

/-- The program of a source with its cleanup, and the faults of its `defer`s. -/
def planned (s : Source) : ScheduledProgram × List CleanupError :=
  s.program.planCleanup s.context

theorem nodup_ids (s : Source) : s.program.ids.Nodup :=
  nodup_ids_parseProgram (tokens s.text)

/-- A source without blocking diagnostics is scheduled. -/
theorem scheduleCleanup_eq (s : Source) {sofar : Diagnostics} (h : sofar.hasBlocking = false) :
    s.program.scheduleCleanup s.context sofar = (some s.planned.1, s.planned.2) := by
  have hcovers : s.context.covers s.program = true := covers_check s.nodup_ids
  rw [Program.scheduleCleanup, h, hcovers]
  rfl

/-- A source that is scheduled without errors has no blocking diagnostics. -/
theorem hasBlocking_of_no_errors (s : Source)
    (h : (s.program.scheduleCleanup s.context s.diagnostics).2 = []) :
    s.diagnostics.hasBlocking = false := by
  by_contra hblocking
  rw [Program.scheduleCleanup, if_pos (eq_true_of_ne_false hblocking)] at h
  contradiction

theorem scheduleCleanup_eq_of_no_errors (s : Source)
    (h : (s.program.scheduleCleanup s.context s.diagnostics).2 = []) :
    s.program.scheduleCleanup s.context s.diagnostics = (some s.planned.1, []) ∧
      s.planned.2 = [] := by
  have hschedule := s.scheduleCleanup_eq (s.hasBlocking_of_no_errors h)
  rw [hschedule] at h
  exact ⟨hschedule.trans (congrArg (Prod.mk (some s.planned.1)) h), h⟩

/-- Scheduling puts cleanup into the bodies of a source and changes nothing else there. -/
theorem bareBlock_planned (s : Source) :
    s.planned.1.program.bodies.map bareBlock = s.program.bodies.map bareBlock := by
  rw [planned, bodies_planCleanup, List.map_map]
  exact List.map_congr_left fun body _ => bareBlock_planBody s.context body

theorem nodup_ids_body (s : Source) {body : Block} (hbody : body ∈ s.program.bodies) :
    (idsOfBlock body).Nodup :=
  (List.nodup_flatMap.1 ((ids_bodies_sublist s.program).nodup s.nodup_ids)).1 body hbody

/-- No two nodes of a scheduled body have the same number. -/
theorem nodup_ids_planned (s : Source) {body : Block} (hbody : body ∈ s.planned.1.program.bodies) :
    (idsOfBlock body).Nodup := by
  rw [planned, bodies_planCleanup, List.mem_map] at hbody
  obtain ⟨source, hsource, rfl⟩ := hbody
  rw [idsOfBlock_planBody]
  exact s.nodup_ids_body hsource

/-- In a scheduled source cleanup stands where it should. -/
theorem scheduled_planned (s : Source) {body : Block} (hbody : body ∈ s.planned.1.program.bodies)
    {p : Point} (hp : p ∈ body.points) : p.Scheduled s.context s.planned.2 := by
  rw [planned, bodies_planCleanup, List.mem_map] at hbody
  obtain ⟨source, hsource, rfl⟩ := hbody
  have hnodup : (declsOfBlock none source).Nodup :=
    ((declsOfBlock_sublist_ids source).nodup (s.nodup_ids_body hsource)).of_map _
  have hscheduled : p.Scheduled s.context (Cleanup.planBody s.context source).errors :=
    planBody_scheduled hnodup (fun x hx => knows_check s.nodup_ids hsource hx) p hp
  refine hscheduled.of_errors fun hnone => List.eq_nil_iff_forall_not_mem.2 fun e he => ?_
  have hmem := errors_planBody_subset s.context hsource e he
  rw [← planned, hnone] at hmem
  contradiction

end Source

/-- In front of every exit of a scheduled source stands the cleanup that the exit asks for, and
nothing else of the program changed. -/
theorem cleanupRun_eq_exitCleanup (s : Source) (h : s.diagnostics.hasBlocking = false) :
    ∃ result errors,
      s.program.scheduleCleanup s.context s.diagnostics = (some result, errors) ∧
        result.program.bodies.map bareBlock = s.program.bodies.map bareBlock ∧
        ∀ body ∈ result.program.bodies, ∀ p ∈ body.points, ∀ kind span,
          p.exit? = some (kind, span) → p.cleanupRun = p.exitCleanup s.context kind span := by
  refine ⟨_, _, s.scheduleCleanup_eq h, s.bareBlock_planned, ?_⟩
  intro body hbody p hp kind span hexit
  exact (s.scheduled_planned hbody hp).exit kind span hexit

/-- A source in which a plain block defers a variable around it, with two exits. -/
def nestedDefer : Source :=
  .ofText 0 "nested" ("fn main() \x7b int x = 1; int y = 2; if (x < y) \x7b return; \x7d " ++
    "\x7b int z = 3; defer release(y, z); \x7d \x7d").toList

theorem cleanupRun_eq_exitCleanup_nestedDefer :
    nestedDefer.diagnostics.hasBlocking = false ∧
      ∃ result errors,
        nestedDefer.program.scheduleCleanup nestedDefer.context nestedDefer.diagnostics =
            (some result, errors) ∧
          result.program.bodies.map bareBlock = nestedDefer.program.bodies.map bareBlock ∧
          ∀ body ∈ result.program.bodies, ∀ p ∈ body.points, ∀ kind span,
            p.exit? = some (kind, span) →
              p.cleanupRun = p.exitCleanup nestedDefer.context kind span := by
  have hclean : nestedDefer.diagnostics.hasBlocking = false := by decide +kernel
  exact ⟨hclean, cleanupRun_eq_exitCleanup nestedDefer hclean⟩

end DeferLang
