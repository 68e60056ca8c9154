import Mathlib.Data.List.Basic
import Vely.Lib.FastCgi
import Vely.Fcgi.Request

/-!
# The parameters of a request

The parameters are the fixed ones and the environment.  The sizing pass computes the size they have
when they are written in the format of FastCGI, and the sending pass fills memory of that size with
them.
-/

namespace Vely

namespace Fcgi

open FastCgi (lengthBytes)

/-- A name and a value, as FastCGI writes them. -/
def paramBytes (p : CString × CString) : List UInt8 :=
  lengthBytes p.1.length ++ (lengthBytes p.2.length ++ (p.1.bytes ++ p.2.bytes))

/-- Parameters, as FastCGI writes them. -/
def paramsBytes (ps : List (CString × CString)) : List UInt8 := ps.flatMap paramBytes

/-- The names and the values of an environment. -/
def envParams : List CString → List (CString × CString)
  | name :: val :: env => (name, val) :: envParams env
  | _ => []

/-- The parameter of the query string, if there is one. -/
def queryParams (p : Payload) : List (CString × CString) :=
  match given p.queryString with
  | some q => [(literal "QUERY_STRING" zero_notMem_queryString, q)]
  | none => []

/-- The parameters of the body, if there is one. -/
def contentParams (r : Request) : List (CString × CString) :=
  match r.body with
  | some (_, contentType) =>
    [(literal "CONTENT_LENGTH" zero_notMem_contentLength, clen r),
      (literal "CONTENT_TYPE" zero_notMem_contentType, contentType)]
  | none => []

/-- The parameters that do not come from the environment. -/
def fixedParams (r : Request) (p : Payload) : List (CString × CString) :=
  [(literal "REQUEST_METHOD" zero_notMem_requestMethod, r.reqMethod),
    (literal "SCRIPT_NAME" zero_notMem_scriptName, r.appPath),
    (literal "PATH_INFO" zero_notMem_pathInfo, p.pathInfo)] ++ queryParams p ++ contentParams r

/-- The parameters of the environment. -/
def environment (r : Request) : List (CString × CString) := envParams (r.env.getD [])

/-- The parameters of a request: the fixed ones, and then those of the environment. -/
def Request.params (r : Request) : List (CString × CString) :=
  fixedParams r (parsePayload r) ++ environment r

/-! ## The sizing pass -/

section Sizing

variable {r : Request} {p : Payload} {n : Nat}

theorem length_lengthBytes (n : Nat) :
  (lengthBytes n).length = if n < 0x80 then 1 else 4
  := by
  unfold lengthBytes
  split
  · rfl
  · rfl

theorem length_paramBytes (name val : CString) :
  (paramBytes (name, val)).length =
    (lengthBytes name.length).length + (lengthBytes val.length).length + name.length + val.length
  := by
  simp only [paramBytes, List.length_append, CString.length]
  omega

/-- The size of a parameter is added. -/
theorem vvSizeEnv_eq (name val : CString) (n : Nat) :
  vvSizeEnv name.length val.length n = n + (paramBytes (name, val)).length
  := by
  rw [length_paramBytes, length_lengthBytes, length_lengthBytes]
  unfold vvSizeEnv
  split
  · split
    · simp only
      omega
    · simp only
      omega
  · split
    · simp only
      omega
    · simp only
      omega

theorem paramsBytes_append (ps qs : List (CString × CString)) :
  paramsBytes (ps ++ qs) = paramsBytes ps ++ paramsBytes qs
  := List.flatMap_append

theorem paramsBytes_cons (q : CString × CString) (ps : List (CString × CString)) :
  paramsBytes (q :: ps) = paramBytes q ++ paramsBytes ps
  := List.flatMap_cons

/-- The lengths in an environment. -/
def envLens : List CString → List (Nat × Nat)
  | name :: val :: env => (name.length, val.length) :: envLens env
  | _ => []

/-- The sizes of an environment are added. -/
theorem sizeEnvs_eq (env : List CString) (n : Nat) :
  sizeEnvs env n = (n + (paramsBytes (envParams env)).length, envLens env)
  := by
  induction env using envParams.induct generalizing n with
  | case1 name val env ih =>
    rw [sizeEnvs, ih, vvSizeEnv_eq, envParams, paramsBytes_cons, List.length_append, envLens, Nat.add_assoc]
  | case2 env h =>
    cases env with
    | nil => rfl
    | cons name env =>
      cases env with
      | nil => rfl
      | cons val env => exact absurd rfl (h name val env)

/-- The lengths that come with a payload are those of its parts. -/
theorem parsePayload_lengths (r : Request) :
  (parsePayload r).pathInfoL = (parsePayload r).pathInfo.length
    ∧ ∀ q ∈ given (parsePayload r).queryString, (parsePayload r).queryStringL = q.length
  := by
  unfold parsePayload
  cases hr : r.urlPayload with
  | none => exact ⟨rfl, fun q hq => by cases hq⟩
  | some s =>
    simp only
    split
    · next hempty =>
      use rfl
      intro q hq
      obtain ⟨hsome, hne⟩ := Option.filter_eq_some_iff.mp hq
      cases hsome
      simp [hempty] at hne
    · split
      · have hle : ∀ l, l ≤ s.bytes.length → pathEnd s.bytes l ≤ s.bytes.length := by
          intro l hl
          induction l with
          | zero => exact Nat.zero_le _
          | succ l ih =>
            rw [pathEnd]
            split
            · have htake := (List.takeWhile_sublist (fun c => decide (c ≠ 63)) (l := s.bytes.drop (l + 1))).length_le
              rw [List.length_drop] at htake
              omega
            · exact ih (by omega)
        have hpath : (r.req.append (takeString s (pathEnd s.bytes s.length))).length =
            r.req.length + pathEnd s.bytes s.length := by
          have hend := hle s.bytes.length le_rfl
          simp only [CString.append, CString.length, takeString, List.length_append, List.length_take]
          rw [min_eq_left hend]
        split
        · use hpath.symm
          intro q hq
          obtain ⟨hq, -⟩ := Option.filter_eq_some_iff.mp hq
          cases hq
          simp only [dropString, CString.length, List.length_drop]
        · use hpath.symm
          intro q hq
          obtain ⟨hq, -⟩ := Option.filter_eq_some_iff.mp hq
          cases hq
          rfl
      · use rfl
        intro q hq
        obtain ⟨hq, -⟩ := Option.filter_eq_some_iff.mp hq
        cases hq
        rfl

/-- The sizing pass computes the size of the parameters. -/
theorem sizePass_eq (r : Request) :
  sizePass r (parsePayload r) = ((paramsBytes r.params).length, envLens (r.env.getD []))
  := by
  obtain ⟨hpath, hquery⟩ := parsePayload_lengths r
  obtain ⟨p, hp⟩ : ∃ p, p = parsePayload r := ⟨_, rfl⟩
  rw [← hp] at hpath hquery
  have hliteral : ∀ s (h : 0 ∉ ascii s), (ascii s).length = (literal s h).length := fun _ _ => rfl
  have hgiven : ∀ n, sizeQuery p n = n + (paramsBytes (queryParams p)).length := by
    intro n
    unfold queryParams sizeQuery
    cases hq : given p.queryString with
    | none => rfl
    | some q =>
      simp only
      rw [hquery q hq, hliteral _ (by decide), vvSizeEnv_eq, paramsBytes_cons]
      simp [paramsBytes]
  have hcontent : ∀ n, sizeContent r n = n + (paramsBytes (contentParams r)).length := by
    intro n
    unfold contentParams sizeContent
    cases r.body with
    | none => rfl
    | some b =>
      obtain ⟨b, contentType⟩ := b
      simp only
      rw [hliteral "CONTENT_TYPE" zero_notMem_contentType, hliteral "CONTENT_LENGTH" zero_notMem_contentLength, vvSizeEnv_eq,
        vvSizeEnv_eq, paramsBytes_cons, paramsBytes_cons, List.length_append, List.length_append]
      simp [paramsBytes, Nat.add_assoc]
  have hsum : (paramsBytes r.params).length =
      sizeContent r (sizeQuery p (vvSizeEnv (ascii "PATH_INFO").length p.pathInfoL
        (vvSizeEnv (ascii "SCRIPT_NAME").length r.appPath.length
          (vvSizeEnv (ascii "REQUEST_METHOD").length r.reqMethod.length 0))))
        + (paramsBytes (environment r)).length := by
    rw [hpath, hliteral "REQUEST_METHOD" zero_notMem_requestMethod, hliteral "SCRIPT_NAME" zero_notMem_scriptName,
      hliteral "PATH_INFO" zero_notMem_pathInfo, vvSizeEnv_eq, vvSizeEnv_eq, vvSizeEnv_eq, hgiven, hcontent,
      Request.params, ← hp, fixedParams]
    simp only [paramsBytes_append, paramsBytes_cons, List.length_append]
    simp only [paramsBytes, List.flatMap_nil, List.length_nil]
    omega
  rw [← hp, hsum]
  unfold sizePass environment
  cases r.env with
  | none => rfl
  | some env => exact sizeEnvs_eq env _

end Sizing

/-! ## The sending pass -/

section Sending

variable {n : Nat}

/-- Memory of `n` cells, the first of which are filled with `done`. -/
def filled (n : Nat) (done : List UInt8) : Env :=
  (⟨done.map some ++ List.replicate (n - done.length) none⟩, done.length)

/-- A pass fills the memory with the bytes `s`, when there is place for them. -/
def Fills (n : Nat) (f : Env → Except FcError Env) (s : List UInt8) : Prop :=
  ∀ done : List UInt8, done.length + s.length ≤ n → f (filled n done) = .ok (filled n (done ++ s))

theorem Fills.bind {f g : Env → Except FcError Env} {s t : List UInt8} (hf : Fills n f s)
    (hg : Fills n g t) :
  Fills n (fun e => f e >>= g) (s ++ t)
  := by
  intro done hle
  rw [List.length_append] at hle
  simp only
  rw [hf done (by omega)]
  change g (filled n (done ++ s)) = _
  rw [hg (done ++ s) (by rw [List.length_append]; omega), List.append_assoc]

theorem fills_nil :
  Fills n .ok []
  := by
  intro done _
  rw [List.append_nil]

/-- Bytes are copied. -/
theorem fills_copyEnv (s : List UInt8) :
  Fills n (copyEnv s) s
  := by
  intro done hle
  obtain ⟨m, hm⟩ : ∃ m, n - done.length = s.length + m := ⟨n - done.length - s.length, by omega⟩
  have hput := @Block.putAll_of_cells ⟨done.map some ++ List.replicate (n - done.length) none⟩ (done.map some)
    (List.replicate s.length none) (List.replicate m none) s done.length
    (by rw [hm, List.replicate_add, ← List.append_assoc]) (by simp) (by simp)
  unfold copyEnv filled
  simp only
  rw [hput]
  simp only [Except.ok.injEq, Prod.mk.injEq, List.length_append, and_true, Block.mk.injEq, List.map_append,
    List.append_assoc]
  congr 3
  omega

theorem lengthHdr_eq {n : Nat} (h : n < 2 ^ 31) :
  lengthHdr n = lengthBytes n
  := by
  unfold lengthHdr lengthBytes
  have hlt : n / 2 ^ 24 < 2 ^ 7 := by omega
  have hor : n >>> 24 ||| 0x80 = 128 + n / 2 ^ 24 := by
    rw [Nat.shiftRight_eq_div_pow, Nat.or_comm]
    exact (Nat.two_pow_add_eq_or_of_lt hlt 1).symm
  rw [hor, Nat.shiftRight_eq_div_pow, Nat.shiftRight_eq_div_pow]

theorem take_block (s : CString) :
  s.block.take s.length = s.bytes
  := List.take_left

/-- A parameter is written. -/
theorem fills_vvSendEnv (hn : n < 2 ^ 31) (name val : CString) :
  Fills n (vvSendEnv name name.length val val.length) (paramBytes (name, val))
  := by
  intro done hle
  have hlength := length_paramBytes name val
  have hcopy := ((fills_copyEnv (n := n) (lengthHdr name.length ++ lengthHdr val.length)).bind
    (fills_copyEnv name.bytes)).bind (fills_copyEnv val.bytes)
  have hbytes : lengthHdr name.length ++ lengthHdr val.length ++ name.bytes ++ val.bytes =
      paramBytes (name, val) := by
    rw [lengthHdr_eq (by omega), lengthHdr_eq (by omega)]
    simp [paramBytes]
  rw [hbytes] at hcopy
  have hfill := hcopy done hle
  unfold vvSendEnv
  rw [take_block, take_block]
  simpa only [bind_assoc] using hfill

/-- An environment is written. -/
theorem fills_sendEnvs (hn : n < 2 ^ 31) (env : List CString) :
  Fills n (sendEnvs env (envLens env)) (paramsBytes (envParams env))
  := by
  induction env using envParams.induct with
  | case1 name val env ih =>
    rw [envParams, paramsBytes_cons]
    exact (fills_vvSendEnv hn name val).bind ih
  | case2 env h =>
    cases env with
    | nil => exact fills_nil
    | cons name env =>
      cases env with
      | nil => exact fills_nil
      | cons val env => exact absurd rfl (h name val env)

theorem fills_sendQuery (hn : n < 2 ^ 31) (r : Request) :
  Fills n (sendQuery (parsePayload r)) (paramsBytes (queryParams (parsePayload r)))
  := by
  have hquery := (parsePayload_lengths r).2
  unfold queryParams
  cases hq : given (parsePayload r).queryString with
  | none =>
    intro done hle
    rw [sendQuery, hq]
    exact fills_nil done hle
  | some q =>
    intro done hle
    rw [sendQuery, hq]
    simp only [paramsBytes, List.flatMap_singleton] at hle ⊢
    rw [hquery q hq]
    exact fills_vvSendEnv hn (literal "QUERY_STRING" zero_notMem_queryString) q done hle

theorem fills_sendContent (hn : n < 2 ^ 31) (r : Request) :
  Fills n (sendContent r) (paramsBytes (contentParams r))
  := by
  intro done hle
  unfold contentParams at hle ⊢
  unfold sendContent
  cases hb : r.body with
  | none =>
    rw [hb] at hle
    exact fills_nil done hle
  | some b =>
    obtain ⟨b, contentType⟩ := b
    rw [hb] at hle
    have hfill := (fills_vvSendEnv hn (literal "CONTENT_LENGTH" zero_notMem_contentLength) (clen r)).bind
      (fills_vvSendEnv hn (literal "CONTENT_TYPE" zero_notMem_contentType) contentType)
    simp only [paramsBytes, List.flatMap_cons, List.flatMap_nil, List.append_nil] at hle ⊢
    exact hfill done hle

/-- The environment is written, if there is one. -/
theorem fills_environment (hn : n < 2 ^ 31) (r : Request) :
  Fills n
    (fun e => match r.env with
      | some env => sendEnvs env (envLens (r.env.getD [])) e
      | none => .ok e)
    (paramsBytes (environment r))
  := by
  unfold environment
  cases r.env with
  | none => exact fills_nil
  | some env => exact fills_sendEnvs hn env

/-- The sending pass writes the parameters. -/
theorem fills_sendPass (hn : n < 2 ^ 31) (r : Request) :
  Fills n (sendPass r (parsePayload r) (envLens (r.env.getD []))) (paramsBytes r.params)
  := by
  have hpath := (parsePayload_lengths r).1
  have hall := (fills_vvSendEnv hn (literal "REQUEST_METHOD" zero_notMem_requestMethod) r.reqMethod).bind
    ((fills_vvSendEnv hn (literal "SCRIPT_NAME" zero_notMem_scriptName) r.appPath).bind
      ((fills_vvSendEnv hn (literal "PATH_INFO" zero_notMem_pathInfo) (parsePayload r).pathInfo).bind
        ((fills_sendQuery hn r).bind
          ((fills_sendContent hn r).bind (fills_environment hn r)))))
  have hbytes : paramsBytes r.params =
      paramBytes (literal "REQUEST_METHOD" zero_notMem_requestMethod, r.reqMethod) ++
      (paramBytes (literal "SCRIPT_NAME" zero_notMem_scriptName, r.appPath) ++
      (paramBytes (literal "PATH_INFO" zero_notMem_pathInfo, (parsePayload r).pathInfo) ++
      (paramsBytes (queryParams (parsePayload r)) ++
      (paramsBytes (contentParams r) ++ paramsBytes (environment r))))) := by
    rw [Request.params, fixedParams]
    simp only [paramsBytes_append, paramsBytes_cons, List.append_assoc]
    simp [paramsBytes]
  rw [hbytes]
  unfold sendPass
  rw [hpath]
  exact hall

/-- Memory of the size that is computed is filled with the parameters. -/
theorem sendPass_alloc (r : Request) (hn : (paramsBytes r.params).length < 2 ^ 31) :
  sendPass r (parsePayload r) (sizePass r (parsePayload r)).2
      (Block.alloc (sizePass r (parsePayload r)).1, 0) =
    .ok (⟨(paramsBytes r.params).map some⟩, (sizePass r (parsePayload r)).1)
  := by
  have hfill := fills_sendPass hn r [] (by simp)
  rw [sizePass_eq]
  simpa [filled, Block.alloc] using hfill

end Sending

end Fcgi

end Vely
