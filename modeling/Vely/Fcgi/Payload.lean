import Vely.Fcgi.Request

/-!
# The path and the query of a payload

A payload is a path, a `?` and a query, or one of these alone.  It is cut at the first `?` after the
last `/`, which is where the path ends unless there is a `/` in the query.
-/

namespace Vely

namespace Fcgi

/-- A path: it is empty, or starts with `/` and has no `?`. -/
structure UrlPath extends CString where
  slash : bytes ≠ [] → bytes.head? = some 47
  noQuestion : 63 ∉ bytes

/-- The payload of a path and a query, or of a path alone. -/
def payloadOf (p : UrlPath) : Option CString → CString
  | none => p.toCString
  | some q => if p.bytes = [] then q else p.toCString.append ((⟨[63], by decide⟩ : CString).append q)

/-- The path information is the request and the path, and the query string is the query, each with
its length. -/
structure SplitOk (req : CString) (p : UrlPath) (q : Option CString) (s : Payload) : Prop where
  pathInfo : s.pathInfo = req.append p.toCString
  pathInfoL : s.pathInfoL = (req.append p.toCString).length
  queryString : s.queryString = some (q.getD CString.empty)
  queryStringL : s.queryStringL = (q.getD CString.empty).length

section

variable {s a b : List UInt8} {l : Nat}

theorem exists_last (h : (47 : UInt8) ∈ s) :
  ∃ a b, s = a ++ 47 :: b ∧ (47 : UInt8) ∉ b
  := by
  obtain ⟨b, a, hs, hb⟩ := List.eq_append_cons_of_mem (List.mem_reverse.mpr h)
  use a.reverse, b.reverse
  constructor
  · rw [← List.reverse_reverse s, hs]
    simp
  · simpa using hb

/-- Without a `/`, there is no path. -/
theorem pathEnd_of_not_mem (h : (47 : UInt8) ∉ s) :
  pathEnd s l = 0
  := by
  induction l with
  | zero => rfl
  | succ l ih =>
    rw [pathEnd, if_neg, ih]
    intro hl
    exact h (List.mem_of_getElem? hl)

/-- The path ends at the first `?` after the last `/`. -/
theorem pathEnd_last (hb : (47 : UInt8) ∉ b) (ha : a.length < l) :
  pathEnd (a ++ 47 :: b) l = a.length + 1 + (b.takeWhile (· ≠ 63)).length
  := by
  induction l with
  | zero => cases ha
  | succ l ih =>
    rw [pathEnd]
    obtain hlt | rfl := Nat.lt_or_eq_of_le (Nat.le_of_lt_succ ha)
    · rw [if_neg, ih hlt]
      intro hl
      rw [List.getElem?_append_right hlt.le] at hl
      obtain ⟨n, hn⟩ : ∃ n, l - a.length = n + 1 := ⟨l - a.length - 1, by omega⟩
      rw [hn, List.getElem?_cons_succ] at hl
      exact hb (List.mem_of_getElem? hl)
    · rw [if_pos (by simp)]
      simp

end

section

variable {r : Request} {p : UrlPath} {q : Option CString} {s : CString}

/-- A payload without a `/` is a query. -/
theorem parsePayload_query (hr : r.urlPayload = some s) (hs : 47 ∉ s.bytes) :
  parsePayload r = ⟨some s, s.length, r.req, r.req.length⟩
  := by
  unfold parsePayload
  rw [hr]
  dsimp only
  rw [pathEnd_of_not_mem hs, if_neg (Nat.lt_irrefl 0)]
  split
  · next hempty => simp [CString.length, hempty]
  · rfl

/-- A payload with a `/` is cut after the last of them. -/
theorem parsePayload_path {a b : List UInt8} (hr : r.urlPayload = some s)
    (hs : s.bytes = a ++ 47 :: b) (hb : 47 ∉ b) :
  (parsePayload r).pathInfoL = r.req.length + (a.length + 1 + (b.takeWhile (· ≠ 63)).length)
    ∧ (parsePayload r).pathInfo
      = r.req.append (takeString s (a.length + 1 + (b.takeWhile (· ≠ 63)).length))
    ∧ ((parsePayload r).queryString, (parsePayload r).queryStringL)
      = if a.length + 1 + (b.takeWhile (· ≠ 63)).length < s.length then
          (some (dropString s (a.length + 1 + (b.takeWhile (· ≠ 63)).length + 1)),
            s.length - (a.length + 1 + (b.takeWhile (· ≠ 63)).length + 1))
        else (some CString.empty, 0)
  := by
  have hend : pathEnd s.bytes s.length = a.length + 1 + (b.takeWhile (· ≠ 63)).length := by
    rw [hs, pathEnd_last hb]
    rw [CString.length, hs, List.length_append, List.length_cons]
    omega
  unfold parsePayload
  rw [hr]
  dsimp only
  rw [if_neg (by simp [hs]), hend, if_pos (by omega)]
  split
  · exact ⟨rfl, rfl, rfl⟩
  · exact ⟨rfl, rfl, rfl⟩

/-- The last `/` of a path, and the rest of it. -/
theorem UrlPath.exists_last (hp : p.bytes ≠ []) :
  ∃ a b, p.bytes = a ++ 47 :: b ∧ (47 : UInt8) ∉ b ∧ b.takeWhile (· ≠ 63) = b
  := by
  have hmem : (47 : UInt8) ∈ p.bytes := List.mem_of_mem_head? (p.slash hp)
  obtain ⟨a, b, hab, hb⟩ := Fcgi.exists_last hmem
  use a, b, hab, hb
  rw [List.takeWhile_eq_self_iff]
  intro c hc
  have hquestion : c ≠ 63 := by
    rintro rfl
    apply p.noQuestion
    rw [hab]
    simp [hc]
  simpa using hquestion

/-- The path and the query are found when there is no `/` in the query. -/
theorem splitOk_of_noSlash (hq : ∀ x ∈ q, 47 ∉ x.bytes) (hr : r.urlPayload = some (payloadOf p q)) :
  SplitOk r.req p q (parsePayload r)
  := by
  by_cases hp : p.bytes = []
  · have hpath : r.req.append p.toCString = r.req := by
      apply CString.ext
      simp [CString.append, hp]
    have hpayload : payloadOf p q = q.getD CString.empty := by
      cases q with
      | none =>
        apply CString.ext
        simp [payloadOf, hp, CString.empty]
      | some x => simp [payloadOf, hp]
    have hslash : 47 ∉ (q.getD CString.empty).bytes := by
      cases q with
      | none => simp [CString.empty]
      | some x => exact hq x rfl
    rw [hpayload] at hr
    rw [parsePayload_query hr hslash]
    constructor
    · exact hpath.symm
    · rw [hpath]
    · rfl
    · rfl
  · obtain ⟨a, b, hab, hb, htake⟩ := UrlPath.exists_last hp
    have hlength : p.bytes.length = a.length + 1 + b.length := by
      rw [hab, List.length_append, List.length_cons]
      omega
    cases q with
    | none =>
      obtain ⟨hl, hpath, hquery⟩ := parsePayload_path hr hab hb
      rw [htake, ← hlength] at hl hpath hquery
      have hend : ¬ p.bytes.length < (payloadOf p none).length := Nat.lt_irrefl _
      rw [if_neg hend, Prod.mk.injEq] at hquery
      have hall : takeString (payloadOf p none) p.bytes.length = p.toCString := by
        apply CString.ext
        exact List.take_length
      rw [hall] at hpath
      constructor
      · exact hpath
      · rw [hl]
        simp [CString.append, CString.length]
      · exact hquery.1
      · exact hquery.2
    | some x =>
      have hbytes : (payloadOf p (some x)).bytes = p.bytes ++ 63 :: x.bytes := by
        rw [payloadOf, if_neg hp]
        simp [CString.append]
      have hcut : (payloadOf p (some x)).bytes = a ++ 47 :: (b ++ 63 :: x.bytes) := by
        rw [hbytes, hab]
        simp
      have hnone : 47 ∉ b ++ 63 :: x.bytes := by
        simp [hb, hq x rfl]
      have htail : (b ++ 63 :: x.bytes).takeWhile (· ≠ 63) = b := by
        rw [List.takeWhile_append_of_pos]
        · simp
        · intro c hc
          rw [← htake] at hc
          exact List.mem_takeWhile_imp (p := fun c => decide (c ≠ 63)) hc
      obtain ⟨hl, hpath, hquery⟩ := parsePayload_path hr hcut hnone
      rw [htail, ← hlength] at hl hpath hquery
      have hend : p.bytes.length < (payloadOf p (some x)).length := by
        rw [CString.length, hbytes, List.length_append, List.length_cons]
        omega
      rw [if_pos hend, Prod.mk.injEq] at hquery
      have htake : takeString (payloadOf p (some x)) p.bytes.length = p.toCString := by
        apply CString.ext
        simp [takeString, hbytes]
      have hdrop : dropString (payloadOf p (some x)) (p.bytes.length + 1) = x := by
        apply CString.ext
        simp [dropString, hbytes, List.drop_append]
      rw [htake] at hpath
      rw [hdrop] at hquery
      constructor
      · exact hpath
      · rw [hl]
        simp [CString.append, CString.length]
      · exact hquery.1
      · rw [hquery.2, CString.length, hbytes, List.length_append, List.length_cons, Option.getD_some,
          CString.length]
        omega

/-- A `/` in the query is taken to be one of the path. -/
theorem not_splitOk_of_slash {x : CString} (hq : q = some x) (hx : 47 ∈ x.bytes)
    (hr : r.urlPayload = some (payloadOf p q)) :
  ¬ SplitOk r.req p q (parsePayload r)
  := by
  subst hq
  intro hok
  obtain ⟨a, b, hab, hb⟩ := exists_last hx
  obtain ⟨a', hcut, hlong⟩ : ∃ a', (payloadOf p (some x)).bytes = a' ++ 47 :: b
      ∧ p.bytes.length ≤ a'.length := by
    by_cases hp : p.bytes = []
    · use a
      simp [payloadOf, hp, hab]
    · use p.bytes ++ 63 :: a
      simp [payloadOf, hp, CString.append, hab]
  obtain ⟨hl, -, -⟩ := parsePayload_path hr hcut hb
  have hwant := hok.pathInfoL
  rw [hl] at hwant
  simp only [CString.append, CString.length, List.length_append] at hwant
  omega

end

end Fcgi

end Vely
