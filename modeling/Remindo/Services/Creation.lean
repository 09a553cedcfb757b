import Remindo.Domain.Wizard
import Remindo.Services.Reminders

namespace Remindo.Services.Reminders

open Remindo.Domain Remindo.Db Remindo.Foundation

section Wizard

/-- The draft is of the one moment the wizard asked for, from `now` on. -/
def Draft.OfMoment (draft : Draft) (d : ℤ) (time : WallTime) (tz : Zone) (now : ℤ) : Prop :=
  draft.schedule = buildOnceSchedule d time ∧ draft.timezone = tz ∧ draft.startsAt.getD now = now

/-- A moment the wizard accepts is found, and let through, exactly if the local
clock gets there within 366 days of 24 hours; only the last three days on offer
can be farther away. -/
theorem wizard_accepts_iff {raw : Text} {now d : ℤ} {tz : Zone} {time : WallTime}
    (hday : parseUserDate raw (localToday now tz) = .ok d)
    (hahead : now ≤ toUtc (combine d time) tz) :
    (firstFireAt (buildOnceSchedule d time) tz now = some (toUtc (combine d time) tz) ∧
        (∀ db ownerId draft, draft.OfMoment d time tz now →
          create db now ownerId draft ≠ .error .scheduleExhausted) ↔
      ∃ u ≤ now + wizardMaxDaysAhead * day, combine d time ≤ astimezone u tz) ∧
    ((∀ u ≤ now + wizardMaxDaysAhead * day, astimezone u tz < combine d time) →
      localToday now tz + 363 < d ∧ d ≤ localToday now tz + wizardMaxDaysAhead) := by
  have hwhole := second_dvd_combine d time
  have hreach : (∃ u ≤ now + wizardMaxDaysAhead * day, combine d time ≤ astimezone u tz) ↔
      toUtc (combine d time) tz ≤ now + wizardMaxDaysAhead * day := by
    constructor
    · rintro ⟨u, hu, hread⟩
      exact (toUtc_le hwhole hread).trans hu
    · exact fun h ↦ ⟨_, h, le_astimezone_toUtc hwhole tz⟩
  refine ⟨?_, fun hshort ↦ ⟨?_, (parseUserDate_eq_ok hday).2⟩⟩
  · rw [hreach, firstFireAt_once]
    constructor
    · rintro ⟨hfound, -⟩
      by_contra hfar
      rw [if_neg fun h ↦ hfar h.2] at hfound
      cases hfound
    · intro hnear
      refine ⟨if_pos ⟨hahead, hnear⟩, ?_⟩
      rintro db ownerId draft ⟨hschedule, htz, hstart⟩ hrefused
      rw [create_exhausted_iff, hschedule, htz, hstart, firstFireAt_once,
        if_pos ⟨hahead, hnear⟩] at hrefused
      cases hrefused
  · by_contra hclose
    exact absurd (combine_le_astimezone tz.bounded (not_lt.mp hclose)) (not_le.mpr (hshort _ le_rfl))

/-- Created at noon, the last day on offer still has its morning. -/
theorem wizard_accepts_iff_morning :
    parseUserDate "2027-06-02".toList (localToday (combine 20605 (.oclock 12)) Zone.utc) =
        .ok 20971 ∧
      firstFireAt (buildOnceSchedule 20971 (.oclock 11)) Zone.utc (combine 20605 (.oclock 12)) =
        some (toUtc (combine 20971 (.oclock 11)) Zone.utc) := by
  have hday : parseUserDate "2027-06-02".toList
      (localToday (combine 20605 (.oclock 12)) Zone.utc) = .ok 20971 := by
    decide
  have hahead : combine 20605 (.oclock 12) ≤ toUtc (combine 20971 (.oclock 11)) Zone.utc := by
    decide
  have hread : combine 20971 (.oclock 11) ≤
      astimezone (combine 20605 (.oclock 12) + wizardMaxDaysAhead * day) Zone.utc := by
    decide
  exact ⟨hday, ((wizard_accepts_iff hday hahead).1.mpr ⟨_, le_rfl, hread⟩).1⟩

/-- Its afternoon is refused. -/
theorem wizard_refuses_its_last_day :
    parseUserDate "2027-06-02".toList (localToday (combine 20605 (.oclock 12)) Zone.utc) =
        .ok 20971 ∧
      combine 20605 (.oclock 12) ≤ toUtc (combine 20971 (.oclock 13)) Zone.utc ∧
        firstFireAt (buildOnceSchedule 20971 (.oclock 13)) Zone.utc (combine 20605 (.oclock 12)) =
          none := by
  decide

end Wizard

end Remindo.Services.Reminders
