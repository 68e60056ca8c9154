import Vely.Db.Execute

/-!
# Calls and the end of a request

The end of a request rolls back, database by database, every transaction whose flag is set.  An
error that a call reports leads to the same, and an error there ends the process.
-/

namespace Vely

namespace Db

section Rules

variable {home : Nat → Nat} {totDbs : Nat} {atEnd : Nat → Attempt} {I : List Nat → Dbs → Prop}
  {P Q R S Z : Dbs → Prop}

/-- Each database is left as it is or rolled back. -/
theorem rollbackAll_rule {ds is : List Nat}
    (hskip : ∀ ds i s, I ds s → (s.conn i).isBeginTransaction = false → I (ds ++ [i]) s)
    (hroll : ∀ ds i, Triple (I ds) (velyRollback i .okay (atEnd i)) (fun _ => I (ds ++ [i])) R) :
  Triple (I ds) (rollbackAll atEnd is) (fun _ => I (ds ++ is)) R
  := by
  induction is generalizing ds with
  | nil =>
    apply Triple.pure
    intro s hs
    rwa [List.append_nil]
  | cons i is ih =>
    have hnext : ds ++ i :: is = ds ++ [i] ++ is := by simp
    apply Triple.get_bind
    intro s hs
    apply Triple.ite
    · intro _
      apply Triple.bind (Q := fun _ => I (ds ++ [i]))
      · apply (hroll ds i).pre
        rintro _ rfl
        exact hs
      · intro _
        apply Triple.bind ih
        intro _
        apply Triple.pure
        intro s hs
        rwa [hnext]
    · intro hflag
      rw [hnext]
      apply ih.pre
      rintro _ rfl
      exact hskip ds i _ hs (by simpa using hflag)

/-- The check at the end of a request, which in another mode than 1 reports that it had to roll
back. -/
theorem velyCheckTransaction_rule {checkMode : Nat}
    (hskip : ∀ ds i s, I ds s → (s.conn i).isBeginTransaction = false → I (ds ++ [i]) s)
    (hroll : ∀ ds i, Triple (I ds) (velyRollback i .okay (atEnd i)) (fun _ => I (ds ++ [i])) R)
    (hreport : checkMode ≠ 1 → ∀ s, I (List.range totDbs) s → R s) :
  Triple (I []) (velyCheckTransaction totDbs checkMode atEnd) (fun _ => I (List.range totDbs)) R
  := by
  apply Triple.bind (rollbackAll_rule hskip hroll)
  intro err
  apply Triple.ite
  · rintro ⟨-, hmode⟩
    apply Triple.throw
    exact hreport hmode
  · intro _
    apply Triple.pure
    intro s hs
    exact hs

/-- A call ends, or an error is reported and the request is checked. -/
theorem exec_rule {c : Call} {env : Env} {s : Dbs}
    (hbody : Triple P (c.body home totDbs env) (fun _ => Z) R)
    (hcheck : Triple R (velyCheckTransaction totDbs 1 env.atEnd) (fun _ => Q) S)
    (hexited : s.exited = true → Z s) (hstart : s.exited = false → P { s with inRequest := true })
    (hdone : ∀ s, Q s → Z { s with inRequest := false })
    (hexit : ∀ s, S s → Z { s with exited := true }) :
  Z (c.exec home totDbs env s)
  := by
  unfold Call.exec
  split
  · rename_i h
    exact hexited h
  · rename_i h
    have hs := hbody _ (hstart (by simpa using h))
    revert hs
    cases c.body home totDbs env { s with inRequest := true } with
    | ok a s' => exact id
    | error e s' =>
      intro hs'
      have hs := hcheck s' hs'
      revert hs
      simp only [afterReport]
      cases velyCheckTransaction totDbs 1 env.atEnd s' with
      | ok a s'' => exact hdone s''
      | error e s'' => exact hexit s''

end Rules

/-- Everything is answered well. -/
def allOk : Env where
  own := ⟨⟨.made, .ok, .ok⟩, ⟨.made, .ok, .ok⟩⟩
  atEnd _ := ⟨⟨.made, .ok, .ok⟩, ⟨.made, .ok, .ok⟩⟩

/-- The connection is lost, and can be made again. -/
def lostOnce : Env where
  own := ⟨⟨.made, .ok, .lost⟩, ⟨.made, .ok, .ok⟩⟩
  atEnd _ := ⟨⟨.made, .ok, .ok⟩, ⟨.made, .ok, .ok⟩⟩

end Db

end Vely
