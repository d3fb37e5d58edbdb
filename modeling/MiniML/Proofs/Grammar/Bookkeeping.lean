import MiniML.Grammar.Cursor
import Mathlib.Data.List.DropRight
import Mathlib.Data.List.MinMax

/-!
# The faults that a cursor keeps

A cursor is moved forth and back while alternatives are tried, and faults are recorded,
collected, committed, forgotten and taken in any order. Its two fields `furthest` and
`faults` sum up what was done: here they are compared with the log of all steps, in which
each step stands with the index at which it was made (`Cursor.log`).

`pending` is what the log says was recorded and neither forgotten nor committed since, and
`furthestOf` chooses the last of those with the greatest index. `reports` is what the log
says was reported. One step keeps both fields in agreement with the log (`Agrees.step`),
hence so does every sequence of steps (`agrees_log`, `bookkeeping`).
-/
namespace MiniML

/-- A step that is made with a cursor. -/
inductive CursorStep where
  | advance
  | restore (index : Nat)
  | record (f : Fault)
  | collect (f : Fault)
  | clear
  | commit
  | take
deriving Repr

namespace Cursor

/-- The faults reported so far, and the cursor without them. -/
def take (c : Cursor) : List Fault × Cursor := (c.faults, c.dropFaults)

end Cursor

namespace CursorStep

/-- The cursor after the step. -/
def run : CursorStep → Cursor → Cursor
  | .advance, c => c.advance
  | .restore i, c => c.restore i
  | .record f, c => c.record f
  | .collect f, c => c.collect f
  | .clear, c => c.clear
  | .commit, c => c.commit
  | .take, c => c.take.2

/-- Whether no fault is pending after the step, whatever was recorded before it. -/
def forgets : CursorStep → Bool
  | .clear | .commit => true
  | _ => false

/-- Whether the step takes the faults that were reported before it. -/
def takes : CursorStep → Bool
  | .take => true
  | _ => false

end CursorStep

/-- Steps, each with the index at which it was made. -/
abbrev Log := List (Nat × CursorStep)

/-- Faults, each with the index at which it was recorded. -/
abbrev Records := List (Nat × Fault)

namespace Cursor

/-- The cursor after these steps. -/
def after (c : Cursor) (steps : List CursorStep) : Cursor := steps.foldl (fun c s => s.run c) c

/-- What is done with a cursor. -/
def log (c : Cursor) : List CursorStep → Log
  | [] => []
  | s :: steps => (c.index, s) :: (s.run c).log steps

end Cursor

/-! ## What a log says -/

/-- What an entry of a log records. -/
def recorded : Nat × CursorStep → Option (Nat × Fault)
  | (i, .record f) => some (i, f)
  | _ => none

/-- What was recorded since faults were forgotten or committed last. -/
def pending (log : Log) : Records := (log.rtakeWhile fun e => !e.2.forgets).filterMap recorded

/-- Of the records with the greatest index the last one. -/
def furthestOf (rs : Records) : Option (Nat × Fault) := rs.reverse.argmax Prod.fst

/-- What a step reports after what was done before. -/
def reported (before : Log) : CursorStep → List Fault
  | .collect f => [f]
  | .commit => (furthestOf (pending before)).toList.map Prod.snd
  | _ => []

/-- What these entries report, one after the other. -/
def reports (before : Log) : Log → List Fault
  | [] => []
  | e :: es => reported before e.2 ++ reports (before ++ [e]) es

/-- The entries up to the last one that takes the reported faults. -/
def untilTaken (log : Log) : Log := log.rdropWhile fun e => !e.2.takes

/-- The entries behind the last one that takes the reported faults. -/
def sinceTaken (log : Log) : Log := log.rtakeWhile fun e => !e.2.takes

@[simp] theorem pending_nil : pending [] = [] := rfl

theorem pending_concat (log : Log) (i : Nat) (s : CursorStep) :
    pending (log ++ [(i, s)]) =
      if s.forgets then [] else pending log ++ (recorded (i, s)).toList := by
  unfold pending
  rw [List.rtakeWhile_concat]
  cases hs : s.forgets
  · cases hr : recorded (i, s) <;> simp [hr]
  · simp

@[simp] theorem furthestOf_nil : furthestOf [] = none := rfl

theorem furthestOf_concat (rs : Records) (r : Nat × Fault) :
    furthestOf (rs ++ [r]) =
      match furthestOf rs with
      | none => some r
      | some e => if e.1 ≤ r.1 then some r else some e := by
  unfold furthestOf
  rw [List.reverse_append, List.reverse_singleton, List.singleton_append, List.argmax_cons]
  cases rs.reverse.argmax Prod.fst with
  | none => rfl
  | some e =>
    show (if r.1 < e.1 then some e else some r) = if e.1 ≤ r.1 then some r else some e
    split <;> split <;> first | rfl | omega

theorem furthestOf_eq_none {rs : Records} : furthestOf rs = none ↔ rs = [] := by
  rw [furthestOf, List.argmax_eq_none, List.reverse_eq_nil_iff]

/-- `e` is one of the records: none before it was made further on, and those behind it were all
made nearer to the start. -/
def IsFurthest (rs : Records) (e : Nat × Fault) : Prop :=
  ∃ pre post, rs = pre ++ e :: post ∧ (∀ r ∈ pre, r.1 ≤ e.1) ∧ ∀ r ∈ post, r.1 < e.1

variable {rs : Records} {e : Nat × Fault}

theorem IsFurthest.mem (h : IsFurthest rs e) : e ∈ rs := by
  obtain ⟨pre, post, rfl, -⟩ := h
  simp

theorem IsFurthest.le (h : IsFurthest rs e) : ∀ r ∈ rs, r.1 ≤ e.1 := by
  obtain ⟨pre, post, rfl, hpre, hpost⟩ := h
  intro r hr
  rcases List.mem_append.mp hr with hr | hr
  · exact hpre r hr
  · rcases List.mem_cons.mp hr with rfl | hr
    · exact Nat.le_refl _
    · exact (hpost r hr).le

/-- A new record is the furthest one unless one was made further on. -/
theorem isFurthest_concat {r : Nat × Fault} :
    IsFurthest (rs ++ [r]) e ↔
      (e = r ∧ ∀ q ∈ rs, q.1 ≤ r.1) ∨ (IsFurthest rs e ∧ r.1 < e.1) := by
  constructor
  · rintro ⟨pre, post, heq, hpre, hpost⟩
    rcases List.eq_nil_or_concat' post with rfl | ⟨post, q, rfl⟩
    · obtain ⟨rfl, hre⟩ := List.append_inj' heq rfl
      obtain rfl := List.singleton_inj.mp hre
      exact .inl ⟨rfl, hpre⟩
    · rw [← List.cons_append, ← List.append_assoc] at heq
      obtain ⟨rfl, hrq⟩ := List.append_inj' heq rfl
      obtain rfl := List.singleton_inj.mp hrq
      exact .inr ⟨⟨pre, post, rfl, hpre, fun q hq => hpost q (by simp [hq])⟩, hpost r (by simp)⟩
  · rintro (⟨rfl, hle⟩ | ⟨⟨pre, post, rfl, hpre, hpost⟩, hlt⟩)
    · exact ⟨rs, [], rfl, hle, by simp⟩
    · refine ⟨pre, post ++ [r], by simp, hpre, fun q hq => ?_⟩
      rcases List.mem_append.mp hq with hq | hq
      · exact hpost q hq
      · exact List.mem_singleton.mp hq ▸ hlt

/-- What `furthestOf` chooses, said of the records themselves. -/
theorem furthestOf_eq_some : furthestOf rs = some e ↔ IsFurthest rs e := by
  induction rs using List.reverseRecOn generalizing e with
  | nil =>
    refine ⟨nofun, fun h => ?_⟩
    cases h.mem
  | append_singleton rs r ih =>
    rw [furthestOf_concat, isFurthest_concat, ← ih]
    cases hrs : furthestOf rs with
    | none =>
      obtain rfl := furthestOf_eq_none.mp hrs
      simp [eq_comm]
    | some f =>
      have hf := ih.mp hrs
      dsimp only
      split
      next hle =>
        -- the new record takes the place of `f`
        rw [Option.some.injEq, Option.some.injEq]
        constructor
        · rintro rfl
          exact .inl ⟨rfl, fun q hq => (hf.le q hq).trans hle⟩
        · rintro (⟨rfl, -⟩ | ⟨rfl, hlt⟩)
          · rfl
          · omega
      next hlt =>
        rw [Option.some.injEq]
        constructor
        · rintro rfl
          exact .inr ⟨rfl, by omega⟩
        · rintro (⟨rfl, hle⟩ | ⟨rfl, -⟩)
          · exact absurd (hle f hf.mem) hlt
          · rfl

theorem reports_concat (before es : Log) (i : Nat) (s : CursorStep) :
    reports before (es ++ [(i, s)]) = reports before es ++ reported (before ++ es) s := by
  induction es generalizing before with
  | nil => simp [reports]
  | cons e es ih => simp [reports, ih]

theorem untilTaken_append_sinceTaken (log : Log) : untilTaken log ++ sinceTaken log = log :=
  List.rdropWhile_append_rtakeWhile

/-! ## What a cursor keeps of its log -/

namespace Cursor

variable {c : Cursor} {log : Log}

/-- The fields of a cursor say what its log says. -/
structure Agrees (log : Log) (c : Cursor) : Prop where
  furthest : c.furthest = furthestOf (pending log)
  faults : c.faults = reports (untilTaken log) (sinceTaken log)

/-- The furthest fault after a step. -/
theorem furthest_run (h : c.furthest = furthestOf (pending log)) (s : CursorStep) :
    (s.run c).furthest = furthestOf (pending (log ++ [(c.index, s)])) := by
  rw [pending_concat]
  have hstays (hs : s.forgets = false) (hr : recorded (c.index, s) = none)
      (hc : (s.run c).furthest = c.furthest) :
      (s.run c).furthest = furthestOf
        (if s.forgets then [] else pending log ++ (recorded (c.index, s)).toList) := by
    simp [hs, hr, hc, h]
  cases s with
  | advance =>
    refine hstays rfl rfl ?_
    show c.advance.furthest = c.furthest
    unfold advance
    split <;> rfl
  | restore i => exact hstays rfl rfl rfl
  | record f =>
    show (c.record f).furthest = furthestOf (pending log ++ [(c.index, f)])
    rw [furthestOf_concat, ← h, record]
    cases hc : c.furthest with
    | none => rfl
    | some e =>
      dsimp only
      split
      · rfl
      · exact hc
  | collect f => exact hstays rfl rfl rfl
  | clear => rfl
  | commit =>
    show c.commit.furthest = none
    unfold commit
    split
    · assumption
    · rfl
  | take => exact hstays rfl rfl rfl

/-- A step that does not take the reported faults adds to them. -/
theorem faults_run (h : c.furthest = furthestOf (pending log)) {s : CursorStep}
    (hs : s.takes = false) : (s.run c).faults = c.faults ++ reported log s := by
  cases s with
  | advance =>
    show c.advance.faults = c.faults ++ []
    unfold advance
    split <;> simp
  | restore i => simp [CursorStep.run, restore, reported]
  | record f =>
    show (c.record f).faults = c.faults ++ []
    unfold record
    repeat' split
    all_goals simp
  | collect f => rfl
  | clear => simp [CursorStep.run, clear, reported]
  | commit =>
    simp only [CursorStep.run, reported, ← h, commit]
    cases c.furthest <;> simp [collect, clear]
  | take => cases hs

theorem Agrees.step (h : Agrees log c) (s : CursorStep) :
    Agrees (log ++ [(c.index, s)]) (s.run c) := by
  refine ⟨furthest_run h.furthest s, ?_⟩
  unfold untilTaken sinceTaken
  rw [List.rdropWhile_concat, List.rtakeWhile_concat]
  cases hs : s.takes
  · rw [faults_run h.furthest hs, h.faults]
    show _ = reports (untilTaken log) (sinceTaken log ++ [(c.index, s)])
    rw [reports_concat, untilTaken_append_sinceTaken]
  · cases s <;> first | rfl | cases hs

theorem after_concat (c : Cursor) (steps : List CursorStep) (s : CursorStep) :
    c.after (steps ++ [s]) = s.run (c.after steps) := by
  simp [after]

theorem log_concat (c : Cursor) (steps : List CursorStep) (s : CursorStep) :
    c.log (steps ++ [s]) = c.log steps ++ [((c.after steps).index, s)] := by
  induction steps generalizing c with
  | nil => rfl
  | cons s' steps ih => simp [log, ih, after]

/-- Every sequence of steps leaves a cursor that agrees with its log. -/
theorem agrees_log (tokens : List Token) (steps : List CursorStep) :
    Agrees ((ofTokens tokens).log steps) ((ofTokens tokens).after steps) := by
  induction steps using List.reverseRecOn with
  | nil => exact ⟨rfl, rfl⟩
  | append_singleton steps s ih =>
    rw [after_concat, log_concat]
    exact ih.step s

/-- After any steps, in any order: no fault is the furthest if none is pending; else it is, with
its index, the last of the pending ones at the greatest index. And what is taken are, in order,
the faults that were collected since faults were last taken, and those that were the furthest
ones when they were committed. -/
theorem bookkeeping (tokens : List Token) (steps : List CursorStep) :
    let c := (ofTokens tokens).after steps
    let log := (ofTokens tokens).log steps
    (c.furthest = none ↔ pending log = []) ∧
      (∀ i f, c.furthest = some (i, f) ↔ IsFurthest (pending log) (i, f)) ∧
      c.take.1 = reports (untilTaken log) (sinceTaken log) := by
  intro c log
  have h := agrees_log tokens steps
  exact ⟨by rw [h.furthest, furthestOf_eq_none], fun i f => by rw [h.furthest, furthestOf_eq_some],
    h.faults⟩

end Cursor
end MiniML
