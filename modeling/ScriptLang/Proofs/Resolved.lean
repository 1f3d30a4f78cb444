import ScriptLang.Check.Binding
import ScriptLang.Proofs.ScopeTrees

/-!
# Resolved trees

What it means that every name of a tree carries the handle of the right declaration, said without
scope trees: an environment lists the names in sight, the innermost first, and grows along the
text. Loop bodies forget what they declared, other blocks do not.

The binding sites of a tree in textual order are numbered one after the other.
-/

namespace ScriptLang

variable {on : DeclId → Prop} {tree : ScopeTree} {n : Nat}

/-- The names in sight with their declarations, the innermost first. -/
abbrev Env := List (String × DeclId)

/-- The environment after a binding site. -/
def Env.bind (env : Env) (name : String) (handle : Option DeclId) : Env :=
  match handle with
  | some id => (name, id) :: env
  | none => env

/-! ## Environments along the text -/

mutual
/-- What is in sight after a statement. -/
def Stmt.extend (env : Env) : Stmt → Env
  | .decl name _ _ _ handle => env.bind name handle
  | .assign .. => env
  | .branch _ blocks _ => extendBlocks env blocks
  | .forLoop .. => env
  | .whileLoop _ body _ => body.extend env
  | .call _ => env
def Block.extend (env : Env) : Block → Env
  | ⟨stmts, _, _, _, _⟩ => extendStmts env stmts
def extendStmts (env : Env) : List Stmt → Env
  | [] => env
  | stmt :: stmts => extendStmts (stmt.extend env) stmts
def extendBlocks (env : Env) : List Block → Env
  | [] => env
  | block :: blocks => extendBlocks (block.extend env) blocks
end

mutual
/-- Every variable carries the handle of the declaration in sight. -/
def Expr.Resolved (env : Env) : Expr → Prop
  | .lit .. => True
  | .var name handle _ _ => ∃ id, handle = some id ∧ env.lookup name = some id
  | .call _ args _ _ => AllResolved env args
def AllResolved (env : Env) : List Expr → Prop
  | [] => True
  | expr :: exprs => expr.Resolved env ∧ AllResolved env exprs
end

mutual
/-- Every name carries the handle of the declaration in sight, and branches have the right number
of blocks. -/
def Stmt.Resolved (env : Env) : Stmt → Prop
  | .decl _ _ value _ handle => value.Resolved env ∧ ∃ id, handle = some id
  | .assign target value _ handle =>
    value.Resolved env ∧ ∃ id, handle = some id ∧ env.lookup target = some id
  | .branch conds blocks _ =>
    branchShapeFits conds.length blocks.length = true ∧ AllResolved env conds ∧
      BlocksResolved env blocks
  | .forLoop var lo hi body _ handle =>
    lo.Resolved env ∧ hi.Resolved env ∧ ∃ id, handle = some id ∧ body.Resolved ((var, id) :: env)
  | .whileLoop cond body _ => cond.Resolved env ∧ body.Resolved env
  | .call value => value.Resolved env
def Block.Resolved (env : Env) : Block → Prop
  | ⟨stmts, ret, _, _, _⟩ =>
    StmtsResolved env stmts ∧ ∀ r, ret = some r → r.value.Resolved (extendStmts env stmts)
def StmtsResolved (env : Env) : List Stmt → Prop
  | [] => True
  | stmt :: stmts => stmt.Resolved env ∧ StmtsResolved (stmt.extend env) stmts
def BlocksResolved (env : Env) : List Block → Prop
  | [] => True
  | block :: blocks => block.Resolved env ∧ BlocksResolved (block.extend env) blocks
end

/-! ## Handles -/

mutual
/-- Every handle in the expression is one of `on`. -/
def Expr.Within (on : DeclId → Prop) : Expr → Prop
  | .lit .. => True
  | .var _ handle _ _ => ∀ id, handle = some id → on id
  | .call _ args _ _ => AllWithin on args
def AllWithin (on : DeclId → Prop) : List Expr → Prop
  | [] => True
  | expr :: exprs => expr.Within on ∧ AllWithin on exprs
end

mutual
/-- Every handle in the statement is one of `on`. -/
def Stmt.Within (on : DeclId → Prop) : Stmt → Prop
  | .decl _ _ value _ handle => value.Within on ∧ ∀ id, handle = some id → on id
  | .assign _ value _ handle => value.Within on ∧ ∀ id, handle = some id → on id
  | .branch conds blocks _ => AllWithin on conds ∧ BlocksWithin on blocks
  | .forLoop _ lo hi body _ _ => lo.Within on ∧ hi.Within on ∧ body.Within on
  | .whileLoop cond body _ => cond.Within on ∧ body.Within on
  | .call value => value.Within on
def Block.Within (on : DeclId → Prop) : Block → Prop
  | ⟨stmts, ret, _, _, _⟩ => StmtsWithin on stmts ∧ ∀ r, ret = some r → r.value.Within on
def StmtsWithin (on : DeclId → Prop) : List Stmt → Prop
  | [] => True
  | stmt :: stmts => stmt.Within on ∧ StmtsWithin on stmts
def BlocksWithin (on : DeclId → Prop) : List Block → Prop
  | [] => True
  | block :: blocks => block.Within on ∧ BlocksWithin on blocks
end

/-! ## Binding sites -/

/-- A place that declares a variable. -/
structure Site where
  name : String
  kind : DeclKind
  ascription : Option TypeExpr
  span : Span
  handle : Option DeclId

namespace Site

/-- The type that the place fixes, unknown for a local without annotation. -/
def type (site : Site) : Except Halt Ty :=
  match site.kind with
  | .loopVar => .ok .int
  | _ => declaredType site.ascription

/-- The declaration is that of the place. -/
structure Declares (site : Site) (var : VarDecl) : Prop where
  name : var.name = site.name
  kind : var.kind = site.kind
  span : var.span = site.span
  type : site.type = .ok var.declared

end Site

mutual
def Stmt.sites : Stmt → List Site
  | .decl name ascription _ span handle => [⟨name, .localVar, ascription, span, handle⟩]
  | .assign .. => []
  | .branch _ blocks _ => sitesOfBlocks blocks
  | .forLoop var _ _ body span handle => ⟨var, .loopVar, none, span, handle⟩ :: body.sites
  | .whileLoop _ body _ => body.sites
  | .call _ => []
def Block.sites : Block → List Site
  | ⟨stmts, _, _, _, _⟩ => sitesOf stmts
def sitesOf : List Stmt → List Site
  | [] => []
  | stmt :: stmts => stmt.sites ++ sitesOf stmts
def sitesOfBlocks : List Block → List Site
  | [] => []
  | block :: blocks => block.sites ++ sitesOfBlocks blocks
end

def Param.site (param : Param) : Site :=
  ⟨param.name, .param, some param.ty, param.span, param.handle⟩

/-- What is in sight after the parameters of a function. -/
def extendParams (env : Env) : List Param → Env
  | [] => env
  | param :: params => extendParams (env.bind param.name param.handle) params

def FnDef.sites (fn : FnDef) : List Site :=
  fn.params.map Param.site ++ fn.body.sites

def CompileUnit.sites (unit : CompileUnit) : List Site :=
  unit.functions.flatMap FnDef.sites ++ unit.script.body.sites

/-! ## Handles of a resolved tree -/

theorem Env.mem_of_lookup {env : Env} {name : String} {id : DeclId}
    (h : env.lookup name = some id) : (name, id) ∈ env := by
  induction env with
  | nil => simp at h
  | cons entry env ih =>
    obtain ⟨name', id'⟩ := entry
    rw [List.lookup_cons] at h
    by_cases hn : name = name'
    · subst hn
      simp only [beq_self_eq_true, Option.some.injEq] at h
      rw [h]
      exact List.mem_cons_self
    · rw [beq_false_of_ne hn] at h
      exact List.mem_cons_of_mem _ (ih h)

/-- Every declaration in sight is one of `on`. -/
def Env.Within (on : DeclId → Prop) (env : Env) : Prop :=
  ∀ entry ∈ env, on entry.2

/-- Every site declares one of `on`. -/
def SitesWithin (on : DeclId → Prop) (sites : List Site) : Prop :=
  ∀ site ∈ sites, ∀ id, site.handle = some id → on id

theorem sitesWithin_append {sites sites' : List Site} :
    SitesWithin on (sites ++ sites') ↔ SitesWithin on sites ∧ SitesWithin on sites' := by
  simp only [SitesWithin, List.mem_append, or_imp, forall_and]

theorem sitesWithin_cons {site : Site} {sites : List Site} :
    SitesWithin on (site :: sites) ↔
      (∀ id, site.handle = some id → on id) ∧ SitesWithin on sites := by
  simp only [SitesWithin, List.mem_cons, forall_eq_or_imp]

theorem Env.Within.bind {env : Env} (he : env.Within on) {name : String} {handle : Option DeclId}
    (h : ∀ id, handle = some id → on id) : (env.bind name handle).Within on := by
  cases handle with
  | none => exact he
  | some id =>
    intro entry hm
    rcases List.mem_cons.mp hm with rfl | hm
    · exact h id rfl
    · exact he entry hm

mutual
theorem Expr.Resolved.within {on : DeclId → Prop} {env : Env} (he : env.Within on) :
    ∀ expr : Expr, expr.Resolved env → expr.Within on
  | .lit .., _ => trivial
  | .var .., h => by
    obtain ⟨id, hh, hl⟩ := h
    intro id' hid
    rw [hh, Option.some.injEq] at hid
    exact hid ▸ he _ (Env.mem_of_lookup hl)
  | .call _ args _ _, h => AllResolved.within he args h
theorem AllResolved.within {on : DeclId → Prop} {env : Env} (he : env.Within on) :
    ∀ exprs : List Expr, AllResolved env exprs → AllWithin on exprs
  | [], _ => trivial
  | expr :: exprs, h => ⟨Expr.Resolved.within he expr h.1, AllResolved.within he exprs h.2⟩
end

mutual
theorem Stmt.Resolved.within {on : DeclId → Prop} : ∀ (stmt : Stmt) {env : Env}, env.Within on →
    SitesWithin on stmt.sites → stmt.Resolved env →
    stmt.Within on ∧ (stmt.extend env).Within on
  | .decl .., _, he, hs, h => by
    have hh := (sitesWithin_cons.mp hs).1
    exact ⟨⟨h.1.within he, hh⟩, he.bind hh⟩
  | .assign .., _, he, _, h => by
    obtain ⟨hv, id, hh, hl⟩ := h
    refine ⟨⟨hv.within he, ?_⟩, he⟩
    intro id' hid
    rw [hh, Option.some.injEq] at hid
    exact hid ▸ he _ (Env.mem_of_lookup hl)
  | .branch _ blocks _, _, he, hs, h => by
    obtain ⟨_, hc, hb⟩ := h
    obtain ⟨hb, he'⟩ := BlocksResolved.within blocks he hs hb
    exact ⟨⟨hc.within he, hb⟩, he'⟩
  | .forLoop var _ _ body _ _, env, he, hs, h => by
    obtain ⟨hl, hh, id, rfl, hb⟩ := h
    obtain ⟨hid, hs⟩ := sitesWithin_cons.mp hs
    have he' : Env.Within on ((var, id) :: env) := he.bind hid
    exact ⟨⟨hl.within he, hh.within he, (Block.Resolved.within body he' hs hb).1⟩, he⟩
  | .whileLoop _ body _, _, he, hs, h => by
    obtain ⟨hb, he'⟩ := Block.Resolved.within body he hs h.2
    exact ⟨⟨h.1.within he, hb⟩, he'⟩
  | .call value, _, he, _, h => ⟨Expr.Resolved.within he value h, he⟩
theorem Block.Resolved.within {on : DeclId → Prop} : ∀ (block : Block) {env : Env}, env.Within on →
    SitesWithin on block.sites → block.Resolved env →
    block.Within on ∧ (block.extend env).Within on
  | ⟨stmts, _, _, _, _⟩, _, he, hs, h => by
    obtain ⟨hst, he'⟩ := StmtsResolved.within stmts he hs h.1
    exact ⟨⟨hst, fun r hr => (h.2 r hr).within he'⟩, he'⟩
theorem StmtsResolved.within {on : DeclId → Prop} : ∀ (stmts : List Stmt) {env : Env},
    env.Within on → SitesWithin on (sitesOf stmts) → StmtsResolved env stmts →
    StmtsWithin on stmts ∧ (extendStmts env stmts).Within on
  | [], _, he, _, _ => ⟨trivial, he⟩
  | stmt :: stmts, _, he, hs, h => by
    obtain ⟨hs₁, hs₂⟩ := sitesWithin_append.mp hs
    obtain ⟨h₁, he'⟩ := Stmt.Resolved.within stmt he hs₁ h.1
    obtain ⟨h₂, he''⟩ := StmtsResolved.within stmts he' hs₂ h.2
    exact ⟨⟨h₁, h₂⟩, he''⟩
theorem BlocksResolved.within {on : DeclId → Prop} : ∀ (blocks : List Block) {env : Env},
    env.Within on → SitesWithin on (sitesOfBlocks blocks) → BlocksResolved env blocks →
    BlocksWithin on blocks ∧ (extendBlocks env blocks).Within on
  | [], _, he, _, _ => ⟨trivial, he⟩
  | block :: blocks, _, he, hs, h => by
    obtain ⟨hs₁, hs₂⟩ := sitesWithin_append.mp hs
    obtain ⟨h₁, he'⟩ := Block.Resolved.within block he hs₁ h.1
    obtain ⟨h₂, he''⟩ := BlocksResolved.within blocks he' hs₂ h.2
    exact ⟨⟨h₁, h₂⟩, he''⟩
end

/-! ## Numbering -/

/-- The sites carry the handles `n`, `n + 1` and so on, and the tree declares them there. -/
def Numbered (tree : ScopeTree) (n : Nat) : List Site → Prop
  | [] => True
  | site :: sites =>
    site.handle = some n ∧ (∃ var, tree.decls[n]? = some var ∧ site.Declares var) ∧
      Numbered tree (n + 1) sites

theorem numbered_append {sites sites' : List Site} :
    Numbered tree n (sites ++ sites') ↔
      Numbered tree n sites ∧ Numbered tree (n + sites.length) sites' := by
  induction sites generalizing n with
  | nil => simp [Numbered]
  | cons site sites ih =>
    have hn : n + 1 + sites.length = n + (sites.length + 1) := by omega
    simp only [List.cons_append, Numbered, ih, List.length_cons, hn, and_assoc]

theorem Numbered.of_decls {tree' : ScopeTree} {sites : List Site}
    (hd : ∀ (id : DeclId) (var : VarDecl), tree.decls[id]? = some var →
      ∃ ty, tree'.decls[id]? = some { var with ty }) (h : Numbered tree n sites) :
    Numbered tree' n sites := by
  induction sites generalizing n with
  | nil => trivial
  | cons site sites ih =>
    obtain ⟨hh, ⟨var, hv, hs⟩, h⟩ := h
    obtain ⟨ty, hv'⟩ := hd n var hv
    exact ⟨hh, ⟨_, hv', ⟨hs.name, hs.kind, hs.span, hs.type⟩⟩, ih h⟩

theorem Numbered.of_agree {tree' : ScopeTree} {sites : List Site} (ha : tree.Agree on tree')
    (h : Numbered tree n sites) : Numbered tree' n sites := by
  refine h.of_decls ?_
  intro id var hv
  obtain ⟨var', hv', he⟩ := ha.exists_decl hv
  exact ⟨var'.ty, he ▸ hv'⟩

theorem Numbered.get {sites : List Site} (h : Numbered tree n sites) {site : Site}
    (hs : site ∈ sites) :
    ∃ (id : Nat) (var : VarDecl), site.handle = some id ∧ n ≤ id ∧ id < n + sites.length ∧
      tree.decls[id]? = some var ∧ site.Declares var := by
  induction sites generalizing n with
  | nil => cases hs
  | cons head sites ih =>
    obtain ⟨hh, ⟨var, hv, hd⟩, h⟩ := h
    rcases List.mem_cons.mp hs with rfl | hs
    · exact ⟨n, var, hh, Nat.le_refl n, by simp, hv, hd⟩
    · obtain ⟨id, var, hi, hlo, hhi, hv, hd⟩ := ih h hs
      have hlt : id < n + (head :: sites).length := by
        rw [List.length_cons]
        omega
      exact ⟨id, var, hi, by omega, hlt, hv, hd⟩

end ScriptLang
