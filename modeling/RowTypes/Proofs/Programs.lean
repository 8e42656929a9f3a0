import RowTypes.Proofs.EndingPrograms
import RowTypes.Proofs.Failures

/-!
# Programs, declaration by declaration

Checking a program leaves nothing behind but the session and the environment, and what becomes of a
declaration depends on nothing else.  Named types are the exception: they are declared ahead of
everything in the program.  So a program may be cut in two wherever no named type is declared
behind the cut, and checking the parts one after the other is checking the whole.

A declaration that fails is answered by its failure, and the rest of the program is checked all the
same.  A definition that fails still binds its name, so no later declaration sees the scheme that
the name had before.

Not every program is answered.  A type `A` that stands for `F A` may be declared before an `F` whose
parameter shows, and the search for the record behind an `A` then goes on for ever; so does the
search for an alternative of `A | Int`, if that is what `A` stands for, that a pair could match.
Where all types that are declared show constructors, every program is answered.
-/

namespace RowTypes

/-- The results of one program, and behind them those of a program that was checked next. -/
def ProgramResult.followedBy (r s : ProgramResult) : ProgramResult where
  outcomes := r.outcomes ++ s.outcomes
  warnings := r.warnings ++ s.warnings
  env := s.env

theorem ProgramResult.report_followedBy (r s : ProgramResult) :
    (r.followedBy s).report = r.report.merge s.report :=
  congrArg Report.mk List.filterMap_append

namespace Decl

/-- What a declaration can come to, and the environment behind it. -/
inductive ComesTo (e : Env) : Decl → DeclOutcome → Env → Prop where
  | missing : ComesTo e .missing (.error ⟨.unimplemented "declaration <nil>", {}⟩) e
  | type (d : TypeDecl) : ComesTo e (.type d) (.ok none) e
  | refused (d : TypeDecl) {failure : Diagnostic} : failure.severity = .error →
      ComesTo e (.type d) (.error failure) e
  | expr (span : Span) (x : Expr) (t : Ty) : ComesTo e (.expr span x) (.ok (some (.mono t))) e
  | exprFailed (span : Span) (x : Expr) {failure : Diagnostic} : failure.severity = .error →
      ComesTo e (.expr span x) (.error failure) e
  | define (d : LetDecl) (scheme : Scheme) :
      ComesTo e (.define d) (.ok (some scheme)) (e.bind d.name scheme)
  | defineFailed (d : LetDecl) (v : TyVar) {failure : Diagnostic} : failure.severity = .error →
      ComesTo e (.define d) (.error failure) (e.bind d.name ⟨[v], .var v⟩)

/-- Whether an outcome is one for a declaration: nothing for a named type, a scheme for a
definition, a type for an expression, or an error. -/
def Yields : Decl → DeclOutcome → Prop
  | _, .error failure => failure.severity = .error
  | .missing, .ok _ => False
  | .type _, .ok scheme? => scheme? = none
  | .define _, .ok scheme? => ∃ scheme, scheme? = some scheme
  | .expr .., .ok scheme? => ∃ t, scheme? = some (.mono t)

/-- What went wrong with a declaration. -/
def failure? : DeclOutcome → Option Diagnostic
  | .error failure => some failure
  | .ok _ => none

/-- What a name is bound to by the outcome of its definition. -/
def Binds (scheme : Scheme) : DeclOutcome → Prop
  | .ok scheme? => scheme? = some scheme
  | .error _ => ∃ v, scheme = ⟨[v], .var v⟩

theorem ComesTo.yields {e e' : Env} {d : Decl} {o : DeclOutcome} (h : ComesTo e d o e') :
    d.Yields o := by
  cases h with
  | missing => rfl
  | type d => rfl
  | expr span x t => exact ⟨t, rfl⟩
  | define d scheme => exact ⟨scheme, rfl⟩
  | refused d hfailure => exact hfailure
  | exprFailed span x hfailure => exact hfailure
  | defineFailed d v hfailure => exact hfailure

end Decl

namespace Env

theorem lookup?_bind_self (e : Env) (name : String) (scheme : Scheme) :
    (e.bind name scheme).lookup? name = some scheme := Table.get?_insert_self ..

theorem lookup?_bind_of_ne (e : Env) {name other : String} (scheme : Scheme) (h : other ≠ name) :
    (e.bind name scheme).lookup? other = e.lookup? other :=
  Table.get?_insert_of_ne h scheme e.schemes

end Env

/-- A definition binds its name as its outcome says. -/
theorem Decl.ComesTo.exists_lookup? {e e' : Env} {d : LetDecl} {o : DeclOutcome}
    (h : ComesTo e (.define d) o e') :
    ∃ scheme, e'.lookup? d.name = some scheme ∧ Binds scheme o := by
  cases h with
  | define d scheme => exact ⟨scheme, e.lookup?_bind_self _ _, rfl⟩
  | defineFailed d v hfailure => exact ⟨_, e.lookup?_bind_self _ _, v, rfl⟩

/-- A declaration binds no name but that of its definition. -/
theorem Decl.ComesTo.lookup?_eq {e e' : Env} {d : Decl} {o : DeclOutcome} (h : ComesTo e d o e')
    {name : String} (hname : ∀ l, d = .define l → name ≠ l.name) :
    e'.lookup? name = e.lookup? name := by
  cases h with
  | define d scheme => exact e.lookup?_bind_of_ne _ (hname d rfl)
  | defineFailed d v hfailure => exact e.lookup?_bind_of_ne _ (hname d rfl)
  | _ => rfl

/-- What declarations come to, one after the other. -/
inductive Decl.ComeTo : Env → List Decl → List DeclOutcome → Env → Prop where
  | nil (e : Env) : ComeTo e [] [] e
  | cons {e e' e'' : Env} {d : Decl} {o : DeclOutcome} {ds : List Decl} {os : List DeclOutcome} :
      d.ComesTo e o e' → ComeTo e' ds os e'' → ComeTo e (d :: ds) (o :: os) e''

namespace Decl.ComeTo

variable {e e' : Env} {ds : List Decl} {os : List DeclOutcome}

theorem yields (h : ComeTo e ds os e') : List.Forall₂ Yields ds os := by
  induction h with
  | nil => exact .nil
  | cons h _ ih => exact .cons h.yields ih

theorem severity (h : ComeTo e ds os e') {failure : Diagnostic} (hmem : .error failure ∈ os) :
    failure.severity = .error := by
  induction h with
  | nil => cases hmem
  | @cons e e' e'' d o ds os h _ ih =>
      rcases List.mem_cons.1 hmem with heq | hmem
      · have hyields := h.yields
        rw [← heq] at hyields
        cases d <;> exact hyields
      · exact ih hmem

/-- Names that are not defined keep their schemes. -/
theorem lookup?_eq (h : ComeTo e ds os e') {name : String}
    (hname : ∀ l, .define l ∈ ds → name ≠ l.name) : e'.lookup? name = e.lookup? name := by
  induction h with
  | nil => rfl
  | cons h _ ih =>
      exact (ih fun l hl => hname l (.tail _ hl)).trans
        (h.lookup?_eq fun l hd => hname l (hd ▸ List.mem_cons_self))

/-- A name has the scheme of its last definition. -/
theorem exists_lookup? {l : LetDecl} {after : List Decl}
    (hafter : ∀ l', .define l' ∈ after → l.name ≠ l'.name) : ∀ (before : List Decl) {e : Env}
    {os : List DeclOutcome}, ComeTo e (before ++ .define l :: after) os e' →
    ∃ o scheme, os[before.length]? = some o ∧ Binds scheme o ∧ e'.lookup? l.name = some scheme
  | [], _, _, h => by
      obtain _ | ⟨h, hrest⟩ := h
      obtain ⟨scheme, hlookup, hbinds⟩ := h.exists_lookup?
      exact ⟨_, scheme, rfl, hbinds, (hrest.lookup?_eq hafter).trans hlookup⟩
  | _ :: before, _, _, h => by
      obtain _ | ⟨_, hrest⟩ := h
      exact exists_lookup? hafter before hrest

end Decl.ComeTo

/-! ## Runs -/

namespace Checker

/-- What checking a definition comes to, seen from the session. -/
theorem run_checkLet (d : LetDecl) (c : Checker) :
    (checkLet d).run c =
      match (Session.generateDecl c.limit c.env d).run c.session with
      | ((.error e, warnings), τ) => ((.error e, warnings), { c with session := τ })
      | ((.ok (scheme, cs), warnings), τ) =>
        match (Session.solve c.limit cs).run τ with
        | (solution, υ) =>
          match solution.failure with
          | some e => ((.error e, warnings), { c with session := υ })
          | none => ((.ok scheme, warnings), { c with session := υ }) := by
  have hget : ∀ {β : Type} (f : Checker → StateM Checker β),
      ((get : StateM Checker Checker) >>= f).run c = (f c).run c := fun _ => rfl
  rw [checkLet, hget, run_bind_inSession]
  generalize (Session.generateDecl c.limit c.env d).run c.session = out
  obtain ⟨⟨r, warnings⟩, τ⟩ := out
  cases r with
  | error e => rfl
  | ok found =>
      obtain ⟨scheme, cs⟩ := found
      dsimp only
      rw [run_bind_inSession]
      generalize (Session.solve c.limit cs).run _ = out
      obtain ⟨⟨s, failure⟩, υ⟩ := out
      cases failure <;> rfl

/-- Checking an expression binds nothing, and what it fails with is an error. -/
theorem checkExpr_spec (x : Expr) (c : Checker) :
    ((checkExpr x).run c).2.env = c.env ∧
      ∀ failure, ((checkExpr x).run c).1 = .error failure → failure.severity = .error := by
  have hinfer := Generate.errs_infer c.limit x c.env 0
  rw [run_checkExpr]
  split
  · next e g hrun =>
      refine ⟨rfl, ?_⟩
      rintro failure ⟨⟩
      exact hinfer.severity hrun
  · next typed g hrun =>
      split
      next solution τ hsolve =>
      split
      · next e he =>
          refine ⟨rfl, ?_⟩
          rintro failure ⟨⟩
          have hfailure : ((Session.solve c.limit typed.constraints).run g.session).1.failure =
              some e := by
            rw [hsolve]
            exact he
          exact Session.severity_solve c.limit hfailure
      · exact ⟨rfl, by rintro failure ⟨⟩⟩

/-- Checking a definition binds nothing yet, and what it fails with is an error. -/
theorem checkLet_spec (d : LetDecl) (c : Checker) :
    ((checkLet d).run c).2.env = c.env ∧
      ∀ failure, ((checkLet d).run c).1.1 = .error failure → failure.severity = .error := by
  have hbinding := Generate.errs_binding c.limit c.env 0 ⟨d.span, d.name, d.isRec, d.typed⟩
    fun e => Generate.errs_infer c.limit d.value e 1
  rw [run_checkLet]
  split
  · next e warnings τ hrun =>
      refine ⟨rfl, ?_⟩
      rintro failure ⟨⟩
      exact Session.severity_generating hbinding (congrArg (·.1.1) hrun)
  · next scheme cs warnings τ hrun =>
      split
      next solution υ hsolve =>
      split
      · next e he =>
          refine ⟨rfl, ?_⟩
          rintro failure ⟨⟩
          have hfailure : ((Session.solve c.limit cs).run τ).1.failure = some e := by
            rw [hsolve]
            exact he
          exact Session.severity_solve c.limit hfailure
      · exact ⟨rfl, by rintro failure ⟨⟩⟩

theorem run_checkDecl_define (l : LetDecl) (declared : Option Diagnostic) (c : Checker) :
    (checkDecl (.define l) declared).run c =
      match (checkLet l).run c with
      | ((.ok scheme, warnings), c') =>
        ((.ok (some scheme), warnings), { c' with env := c'.env.bind l.name scheme })
      | ((.error e, warnings), c') =>
        match anything.run c' with
        | (scheme, c'') =>
          ((.error e, warnings), { c'' with env := c''.env.bind l.name scheme }) := by
  rw [checkDecl, StateM.run_bind]
  generalize (checkLet l).run c = out
  obtain ⟨⟨_ | _, warnings⟩, c'⟩ := out <;> rfl

theorem run_checkDecl_expr (span : Span) (x : Expr) (declared : Option Diagnostic) (c : Checker) :
    (checkDecl (.expr span x) declared).run c =
      match (checkExpr x).run c with
      | (.ok checked, c') => ((.ok (some (.mono checked.ty)), checked.warnings), c')
      | (.error e, c') => ((.error e, []), c') := by
  rw [checkDecl, StateM.run_bind]
  generalize (checkExpr x).run c = out
  obtain ⟨_ | _, c'⟩ := out <;> rfl

/-- One declaration: its outcome, and what it does to the environment. -/
theorem comesTo_checkDecl (d : Decl) (declared : Option Diagnostic) (c : Checker)
    (hdeclared : ∀ failure, declared = some failure → failure.severity = .error) :
    d.ComesTo c.env ((checkDecl d declared).run c).1.1 ((checkDecl d declared).run c).2.env := by
  cases d with
  | missing => exact .missing
  | type d =>
      cases declared with
      | none => exact .type d
      | some failure => exact .refused d (hdeclared failure rfl)
  | define l =>
      obtain ⟨henv, hfailure⟩ := checkLet_spec l c
      rw [run_checkDecl_define]
      generalize (checkLet l).run c = out at henv hfailure
      obtain ⟨⟨result, warnings⟩, c'⟩ := out
      rw [← henv]
      cases result with
      | ok scheme => exact .define l scheme
      | error failure => exact .defineFailed l _ (hfailure failure rfl)
  | expr span x =>
      obtain ⟨henv, hfailure⟩ := checkExpr_spec x c
      rw [run_checkDecl_expr]
      generalize (checkExpr x).run c = out at henv hfailure
      obtain ⟨result, c'⟩ := out
      rw [← henv]
      cases result with
      | ok checked => exact .expr span x checked.ty
      | error failure => exact .exprFailed span x (hfailure failure rfl)

/-- Declares what a declaration declares ahead of the program: a named type, or nothing. -/
def declareType : Decl → StateM Checker (Option Diagnostic)
  | .type t => do
    match ← inSession (Session.declare t).run with
    | .ok () => pure none
    | .error e => pure (some e)
  | _ => pure none

theorem run_declareTypes_cons (d : Decl) (ds : List Decl) (c : Checker) :
    (declareTypes (d :: ds)).run c =
      (((declareType d).run c).1 :: ((declareTypes ds).run ((declareType d).run c).2).1,
        ((declareTypes ds).run ((declareType d).run c).2).2) := by
  cases d with
  | type t =>
      have hinner : (declareTypes (.type t :: ds)).run c = (do
          let failure ← declareType (.type t)
          let failures ← declareTypes ds
          pure (failure :: failures) : StateM Checker _).run c := by
        rw [declareTypes, declareType, bind_assoc, StateM.run_bind, StateM.run_bind]
        generalize (inSession (Session.declare t).run).run c = out
        obtain ⟨_ | _, c'⟩ := out <;> rfl
      exact hinner
  | _ => rfl

/-- Declaring a named type binds nothing, and what is wrong with it is an error. -/
theorem declareType_spec (d : Decl) (c : Checker) :
    ((declareType d).run c).2.env = c.env ∧
      ∀ failure, ((declareType d).run c).1 = some failure → failure.severity = .error := by
  cases d with
  | type t =>
      have herrs : ∀ e τ, (Session.declare t).run c.session = (.error e, τ) →
          e.severity = .error := fun _ _ => (Session.errs_declare t).severity
      have hrun : (declareType (.type t)).run c =
          match (Session.declare t).run c.session with
          | (.ok (), τ) => (none, { c with session := τ })
          | (.error e, τ) => (some e, { c with session := τ }) := by
        rw [declareType, run_bind_inSession]
        generalize hout : (Session.declare t).run c.session = out
        have hout' : ((Session.declare t).run).run c.session = out := hout
        rw [hout']
        obtain ⟨_ | _, τ⟩ := out <;> rfl
      rw [hrun]
      generalize (Session.declare t).run c.session = out at herrs
      obtain ⟨e | _, τ⟩ := out
      · refine ⟨rfl, ?_⟩
        rintro failure ⟨⟩
        exact herrs e τ rfl
      · exact ⟨rfl, by rintro failure ⟨⟩⟩
  | _ => exact ⟨rfl, by rintro failure ⟨⟩⟩

/-- Declaring named types binds nothing; there is one answer for each declaration, and what is
complained about is an error. -/
theorem declareTypes_spec : ∀ (ds : List Decl) (c : Checker),
    ((declareTypes ds).run c).2.env = c.env ∧ ((declareTypes ds).run c).1.length = ds.length ∧
      ∀ failure, some failure ∈ ((declareTypes ds).run c).1 → failure.severity = .error
  | [], c => ⟨rfl, rfl, by rintro failure ⟨⟩⟩
  | d :: ds, c => by
      obtain ⟨henv, hfailure⟩ := declareType_spec d c
      obtain ⟨henv', hlength, hfailures⟩ := declareTypes_spec ds ((declareType d).run c).2
      rw [run_declareTypes_cons]
      refine ⟨henv'.trans henv, congrArg (· + 1) hlength, fun failure hmem => ?_⟩
      rcases List.mem_cons.1 hmem with h | h
      · exact hfailure failure h.symm
      · exact hfailures failure h

/-- Where there are no named types nothing is declared ahead. -/
theorem run_declareTypes_of_untyped {c : Checker} : ∀ {ds : List Decl}, (∀ t, .type t ∉ ds) →
    (declareTypes ds).run c = (ds.map fun _ => none, c)
  | [], _ => rfl
  | d :: ds, h => by
      have hhead : (declareType d).run c = (none, c) := by
        cases d with
        | type t => exact absurd List.mem_cons_self (h t)
        | _ => rfl
      rw [run_declareTypes_cons, hhead,
        run_declareTypes_of_untyped fun t ht => h t (.tail _ ht)]
      rfl

theorem run_declareTypes_append {es : List Decl} : ∀ (ds : List Decl) (c : Checker),
    (declareTypes (ds ++ es)).run c =
      (((declareTypes ds).run c).1 ++ ((declareTypes es).run ((declareTypes ds).run c).2).1,
        ((declareTypes es).run ((declareTypes ds).run c).2).2)
  | [], _ => rfl
  | d :: ds, c => by
      rw [List.cons_append, run_declareTypes_cons, run_declareTypes_cons,
        run_declareTypes_append ds]
      rfl

theorem run_checkDecls_cons (d : Decl) (declared : Option Diagnostic)
    (ds : List (Decl × Option Diagnostic)) (c : Checker) :
    (checkDecls ((d, declared) :: ds)).run c =
      (((checkDecl d declared).run c).1 :: ((checkDecls ds).run ((checkDecl d declared).run c).2).1,
        ((checkDecls ds).run ((checkDecl d declared).run c).2).2) := rfl

theorem run_checkDecls_append {es : List (Decl × Option Diagnostic)} :
    ∀ (ds : List (Decl × Option Diagnostic)) (c : Checker), (checkDecls (ds ++ es)).run c =
      (((checkDecls ds).run c).1 ++ ((checkDecls es).run ((checkDecls ds).run c).2).1,
        ((checkDecls es).run ((checkDecls ds).run c).2).2)
  | [], _ => rfl
  | (d, declared) :: ds, c => by
      rw [List.cons_append, run_checkDecls_cons, run_checkDecls_cons, run_checkDecls_append ds]
      rfl

theorem comeTo_checkDecls {ds : List Decl} {declared : List (Option Diagnostic)} (c : Checker)
    (hlength : declared.length = ds.length)
    (hfailures : ∀ failure, some failure ∈ declared → failure.severity = .error) :
    Decl.ComeTo c.env ds (((checkDecls (ds.zip declared)).run c).1.map (·.1))
      ((checkDecls (ds.zip declared)).run c).2.env := by
  induction ds generalizing declared c with
  | nil => exact .nil c.env
  | cons d ds ih =>
      obtain _ | ⟨f, declared⟩ := declared
      · cases hlength
      · have hd := comesTo_checkDecl d f c fun failure h => hfailures failure (h ▸ .head _)
        have hds := ih ((checkDecl d f).run c).2 (Nat.succ.inj hlength) fun failure h =>
          hfailures failure (.tail _ h)
        rw [List.zip_cons_cons, run_checkDecls_cons]
        exact .cons hd hds

/-- What checking a program comes to: its named types are declared, then everything is checked. -/
theorem run_checkProgram (p : Program) (c : Checker) :
    (checkProgram p).run c =
      match (declareTypes p.decls).run c with
      | (declared, c') =>
        match (checkDecls (p.decls.zip declared)).run c' with
        | (outs, c'') => (⟨outs.map (·.1), outs.flatMap (·.2), c''.env⟩, c'') := rfl

/-- What is left behind a program is what its declarations leave, after its named types. -/
theorem snd_run_checkProgram (p : Program) (c : Checker) : ((checkProgram p).run c).2 =
    ((checkDecls (p.decls.zip ((declareTypes p.decls).run c).1)).run
      ((declareTypes p.decls).run c).2).2 := rfl

theorem comeTo_checkProgram (p : Program) (c : Checker) :
    Decl.ComeTo c.env p.decls ((checkProgram p).run c).1.outcomes
      ((checkProgram p).run c).1.env := by
  obtain ⟨henv, hlength, hfailures⟩ := declareTypes_spec p.decls c
  rw [run_checkProgram]
  generalize (declareTypes p.decls).run c = out at henv hlength hfailures
  rw [← henv]
  exact comeTo_checkDecls out.2 hlength hfailures

/-- A program may be cut in two where no named type is declared behind the cut. -/
theorem run_checkProgram_append (span : Span) (p q : Program) (hq : ∀ t, .type t ∉ q.decls)
    (c : Checker) :
    (checkProgram ⟨span, p.decls ++ q.decls⟩).run c =
      match (checkProgram p).run c with
      | (r, c') =>
        match (checkProgram q).run c' with
        | (s, c'') => (r.followedBy s, c'') := by
  obtain ⟨-, hlength, -⟩ := declareTypes_spec p.decls c
  rw [run_checkProgram, run_checkProgram p, run_declareTypes_append]
  generalize (declareTypes p.decls).run c = out at hlength
  obtain ⟨declared, c'⟩ := out
  dsimp only at hlength ⊢
  rw [run_declareTypes_of_untyped hq, List.zip_append hlength.symm, run_checkDecls_append]
  generalize (checkDecls (p.decls.zip declared)).run c' = out
  obtain ⟨outs, c''⟩ := out
  dsimp only
  rw [run_checkProgram q, run_declareTypes_of_untyped hq]
  dsimp only
  rw [List.map_append, List.flatMap_append]
  rfl

end Checker

theorem ProgramResult.entries_report (r : ProgramResult) :
    r.report.entries = r.outcomes.filterMap Decl.failure? :=
  congrArg (r.outcomes.filterMap ·) (funext fun o => by cases o <;> rfl)

/-- A program is fine if and only if nothing failed, as whatever fails is an error. -/
theorem ProgramResult.isOk_iff {r : ProgramResult}
    (h : ∀ failure, .error failure ∈ r.outcomes → failure.severity = .error) :
    r.isOk = true ↔ r.report.entries = [] := by
  have hsome : r.report.hasError = true ↔ r.report.entries ≠ [] := by
    rw [Report.hasError, List.any_eq_true]
    refine ⟨fun ⟨_, hmem, _⟩ => List.ne_nil_of_mem hmem, fun hne => ?_⟩
    obtain ⟨failure, hmem⟩ := List.exists_mem_of_ne_nil _ hne
    have hentry := hmem
    rw [r.entries_report] at hentry
    obtain ⟨o, ho, hfailure⟩ := List.mem_filterMap.1 hentry
    cases o with
    | ok found => cases hfailure
    | error e =>
        obtain rfl := Option.some.inj hfailure
        exact ⟨e, hmem, beq_iff_eq.2 (h e ho)⟩
  rw [isOk, Bool.not_eq_true', ← Bool.not_eq_true, hsome, not_not]

/-- Checking a program ends, with these results, and leaves the second checker behind. -/
def Checker.ChecksTo (c : Checker) (p : Program) (r : ProgramResult) (c' : Checker) : Prop :=
  (checkProgram p).run c = (r, c') ∧ c'.session.ends

/-- Where no named type is declared behind the cut, checking the whole ends if and only if checking
the parts does, one after the other. -/
theorem Checker.checksTo_append_iff {c c'' : Checker} {span : Span} {p q : Program}
    {out : ProgramResult} (hq : ∀ t, .type t ∉ q.decls) :
    c.ChecksTo ⟨span, p.decls ++ q.decls⟩ out c'' ↔
      ∃ r s c', c.ChecksTo p r c' ∧ c'.ChecksTo q s c'' ∧ out = r.followedBy s := by
  unfold ChecksTo
  rw [run_checkProgram_append span p q hq c]
  constructor
  · rintro ⟨hrun, hends⟩
    obtain ⟨rfl, rfl⟩ := Prod.mk.inj hrun
    exact ⟨_, _, _, ⟨rfl, ends_of_checkProgram hends⟩, ⟨rfl, hends⟩, rfl⟩
  · rintro ⟨r, s, c', ⟨hp, -⟩, ⟨hq, hends⟩, rfl⟩
    rw [hp]
    dsimp only
    rw [hq]
    exact ⟨rfl, hends⟩

/-- Checking goes declaration by declaration.  Where the second of two programs declares no named
types, checking both as one program is checking one after the other: with the same outcomes,
failures and warnings in a row, and with the same checker in the end.  Every program that is answered
has one outcome of the right kind for each of its declarations; its failures are those of its
outcomes, and it is fine if and only if there are none.  Behind it a name has the scheme of its last
definition, that of anything if the definition failed, and all other names have the schemes that
they had before.  Every program is answered if the types that it declares show constructors, as
those have that were declared before it, and so is every such program after it. -/
theorem checkProgram_by_declaration (c : Checker) :
    (∀ (span : Span) (p q : Program) (out : ProgramResult) (c'' : Checker),
      (∀ t, .type t ∉ q.decls) →
      (c.ChecksTo ⟨span, p.decls ++ q.decls⟩ out c'' ↔
        ∃ r s c', c.ChecksTo p r c' ∧ c'.ChecksTo q s c'' ∧ out = r.followedBy s ∧
          out.report = r.report.merge s.report)) ∧
    (∀ (p : Program) (r : ProgramResult) (c' : Checker), c.ChecksTo p r c' →
      List.Forall₂ Decl.Yields p.decls r.outcomes ∧
      r.report.entries = r.outcomes.filterMap Decl.failure? ∧
      (r.isOk = true ↔ r.report.entries = []) ∧
      r.env = c'.env ∧
      (∀ name, (∀ l, .define l ∈ p.decls → name ≠ l.name) →
        r.env.lookup? name = c.env.lookup? name) ∧
      ∀ before l after, p.decls = before ++ .define l :: after →
        (∀ l', .define l' ∈ after → l.name ≠ l'.name) →
        ∃ o scheme, r.outcomes[before.length]? = some o ∧ Decl.Binds scheme o ∧
          r.env.lookup? l.name = some scheme) ∧
    (c.Overt → ∀ p : Program, (∀ d ∈ p.decls, d.isOvert = true) →
      ∃ r c', c.ChecksTo p r c' ∧ c'.Overt) := by
  refine ⟨fun span p q out c'' hq => ?_, fun p r c' ⟨hrun, _⟩ => ?_, fun hc p hp => ?_⟩
  · rw [Checker.checksTo_append_iff hq]
    constructor
    · rintro ⟨r, s, c', hp, hq, rfl⟩
      exact ⟨r, s, c', hp, hq, rfl, ProgramResult.report_followedBy r s⟩
    · rintro ⟨r, s, c', hp, hq, rfl, -⟩
      exact ⟨r, s, c', hp, hq, rfl⟩
  · have h := Checker.comeTo_checkProgram p c
    rw [hrun] at h
    refine ⟨h.yields, r.entries_report, ProgramResult.isOk_iff fun _ => h.severity, ?_,
      fun name => h.lookup?_eq, fun before l after hdecls hafter => ?_⟩
    · rw [Checker.run_checkProgram] at hrun
      obtain ⟨rfl, rfl⟩ := Prod.mk.inj hrun
      rfl
    · exact Decl.ComeTo.exists_lookup? hafter before (hdecls ▸ h)
  · exact ⟨_, _, ⟨rfl, (hc.checkProgram hp).ends⟩, hc.checkProgram hp⟩

/-- A named type and a definition. -/
def idOfPair : Program where
  decls := [
    .type ⟨{}, "Pair", ["a"], .tuple {} [.ref {} "a", .ref {} "a"]⟩,
    .define ⟨{}, "id", false, none, .lambda {} [⟨{}, "x", none⟩] (.var {} "x")⟩]

/-- A definition that uses a name that is not in scope, and an expression. -/
def outOfScope : Program where
  decls := [
    .define ⟨{}, "id", false, none, .var {} "nowhere"⟩,
    .expr {} (.literal {} .string "one")]

/-- Two programs of two declarations each have four outcomes, in one go or one after the other. -/
theorem checkProgram_outOfScope :
    (∀ t, .type t ∉ outOfScope.decls) ∧ (Checker.start true 0).Overt ∧
    (∀ d ∈ idOfPair.decls ++ outOfScope.decls, d.isOvert = true) ∧
    ∃ r s c' c'', (Checker.start true 0).ChecksTo idOfPair r c' ∧ c'.ChecksTo outOfScope s c'' ∧
      (Checker.start true 0).ChecksTo ⟨{}, idOfPair.decls ++ outOfScope.decls⟩ (r.followedBy s) c'' ∧
      (r.followedBy s).outcomes.length = 4 := by
  have huntyped : ∀ t, .type t ∉ outOfScope.decls := by simp [outOfScope]
  have hstart := Checker.overt_start true 0
  have hovert : ∀ d ∈ idOfPair.decls ++ outOfScope.decls, d.isOvert = true := by
    simp [idOfPair, outOfScope, Decl.isOvert, TyExpr.isOvert]
  obtain ⟨hcut, hanswered, hall⟩ := checkProgram_by_declaration (Checker.start true 0)
  obtain ⟨out, c'', hboth, -⟩ := hall hstart ⟨{}, idOfPair.decls ++ outOfScope.decls⟩ hovert
  obtain ⟨r, s, c', hr, hs, rfl, -⟩ := (hcut {} idOfPair outOfScope out c'' huntyped).1 hboth
  obtain ⟨hyields, -⟩ := hanswered _ _ _ hboth
  exact ⟨huntyped, hstart, hovert, r, s, c', c'', hr, hs, hboth, hyields.length_eq.symm⟩

/-! ## A program that is not answered -/

/-- A function that spreads what it is given, of a type that will stand for itself. -/
def spreadCircular : Expr :=
  .lambda {} [⟨{}, "x", some (.name {} "A" [])⟩] (.record {} [] [.var {} "x"])

/-- What the first named type stands for is not known before the second is declared. -/
def circularProgram : Program where
  decls := [
    .type ⟨{}, "A", [], .name {} "F" [.name {} "A" []]⟩,
    .type ⟨{}, "F", ["a"], .ref {} "a"⟩,
    .expr {} spreadCircular]

/-- The two named types, declared. -/
def circularTypes : Registry where
  definitions := [
    ("A", { name := "A", body := .named "F" [.named "A" []] }),
    ("F", { name := "F", params := [⟨4, 0⟩], body := .var ⟨4, 0⟩ })]

/-- What is asked of the parameter, in the order in which it is solved. -/
def circularDemands : List Constraint := [
  { demand := .equal (.var ⟨6, 0⟩) (.named "A" []) },
  { demand := .recordShape (.var ⟨6, 0⟩) },
  { demand := .equal (.var ⟨8, 0⟩) (.fn (.named "A" []) (.var ⟨7, 0⟩)) },
  { demand := .merge (.var ⟨7, 0⟩) [.var ⟨6, 0⟩] {} }]

theorem head?_circularTypes : circularTypes.head? (.named "A" []) = none :=
  have hA : circularTypes.expand? "A" [] = some (.named "F" [.named "A" []]) := by cbv
  have hF : circularTypes.expand? "F" [.named "A" []] = some (.named "A" []) := by cbv
  Registry.head?_of_circular hA hF

theorem not_ends_solve_circular {cs : ConstraintSet} (hcs : cs.simplify.sorted = circularDemands) :
    ¬ ((Session.solve 250 cs).run { supply := ⟨8⟩, registry := circularTypes }).2.ends := by
  -- The parameter is bound to the named type, so it is the named type that has to be a record.
  have hfirst : (Session.discharge 250 (Constraint.apply .empty
      { demand := .equal (.var ⟨6, 0⟩) (.named "A" []) })).run
        { supply := ⟨8⟩, registry := circularTypes } =
      (.ok (.single ⟨6, 0⟩ (.named "A" [])), { supply := ⟨8⟩, registry := circularTypes }) := by
    cbv
  rw [Session.solve, hcs, circularDemands, Session.run_solveInOrder, List.foldl_nil, hfirst]
  exact Session.not_ends_solveInOrder (t := .named "A" []) (by cbv) head?_circularTypes

/-- The checker behind the two declarations. -/
def circularChecker : Checker :=
  { Checker.start true 0 with session := { supply := ⟨4⟩, registry := circularTypes } }

set_option maxRecDepth 8000 in
theorem not_ends_checkExpr_circular :
    ¬ ((Checker.checkExpr spreadCircular).run circularChecker).2.session.ends := by
  cases hinfer : (Generate.infer circularChecker.limit circularChecker.env 0 spreadCircular).run
      { session := circularChecker.session } with
  | mk result g =>
      have hout : (result.map (·.constraints.simplify.sorted), g.session) =
          (.ok circularDemands, { supply := ⟨8⟩, registry := circularTypes }) := by
        rw [show result = _ from (congrArg Prod.fst hinfer).symm,
          show g = _ from (congrArg Prod.snd hinfer).symm]
        cbv
      obtain ⟨hsorted, hsession⟩ := Prod.mk.inj hout
      cases result with
      | error e => cases hsorted
      | ok typed =>
          refine Checker.not_ends_checkExpr hinfer ?_
          rw [hsession]
          exact not_ends_solve_circular (Except.ok.inj hsorted)

/-- Not every program is answered. -/
theorem not_checksTo_circularProgram (r : ProgramResult) (c : Checker) :
    ¬ (Checker.start true 0).ChecksTo circularProgram r c := by
  have hdeclare : (Checker.declareTypes circularProgram.decls).run (Checker.start true 0) =
      ([none, none, none], circularChecker) := by cbv
  have hdecls : ∀ c, ((Checker.checkDecls (circularProgram.decls.zip [none, none, none])).run c).2 =
      ((Checker.checkDecl (.expr {} spreadCircular) none).run c).2 := fun _ => rfl
  rintro ⟨hrun, hends⟩
  rw [show c = _ from (congrArg Prod.snd hrun).symm, Checker.snd_run_checkProgram, hdeclare, hdecls,
    Checker.run_checkDecl_expr] at hends
  have hexpr := not_ends_checkExpr_circular
  generalize (Checker.checkExpr spreadCircular).run circularChecker = out at hexpr hends
  obtain ⟨_ | _, c⟩ := out <;> exact hexpr hends

end RowTypes
