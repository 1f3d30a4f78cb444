import ScriptLang.Proofs.Binding
import ScriptLang.Proofs.Renumbering

/-!
# Binding the same text elsewhere

Whether names can be bound depends on the text alone: what one scope tree binds, another one binds
as well, and the results are alike. The declarations of the text are numbered in the same order from
different starts.
-/

namespace ScriptLang

open Pass ScopeTree

variable {tree : ScopeTree} {name : String}

/-! ## Numbers from two starts -/

/-- The numbers at the same distance, below `count`, from two starts. -/
def Shifted (n n' count : Nat) (i j : DeclId) : Prop :=
  ∃ k < count, i = n + k ∧ j = n' + k

theorem Shifted.unique {n n' count i j i' j' : Nat} (h : Shifted n n' count i j)
    (h' : Shifted n n' count i' j') : i = i' ↔ j = j' := by
  obtain ⟨k, _, rfl, rfl⟩ := h
  obtain ⟨k', _, rfl, rfl⟩ := h'
  omega

/-- What one tree declares from `n` on is like what another declares from `n'` on. -/
def ScopeTree.LikeFrom (n n' : Nat) (tree tree' : ScopeTree) : Prop :=
  ∀ k : Nat, Option.Rel VarDecl.Like tree.decls[n + k]? tree'.decls[n' + k]?

/-- Two places where the same names are in sight and the same names can be declared. -/
structure Facing (n n' count : Nat) (scope : Nat) (tree : ScopeTree) (env : Env) (scope' : Nat)
    (tree' : ScopeTree) (env' : Env) : Prop where
  arena : tree.Arena
  arena' : tree'.Arena
  inside : scope < tree.parents.length
  inside' : scope' < tree'.parents.length
  sees : tree.Sees scope env
  sees' : tree'.Sees scope' env'
  names : List.Forall₂ (fun entry entry' => entry.1 = entry'.1 ∧
    Shifted n n' count entry.2 entry'.2) env env'
  here : ∀ name, tree.declaredIn? scope name = none ↔ tree'.declaredIn? scope' name = none
  length : ∃ k, tree.decls.length = n + k ∧ tree'.decls.length = n' + k
  like : LikeFrom n n' tree tree'

theorem declaredIn?_declare {scope : ScopeId} {var : VarDecl} (hv : var.scope = scope) :
    ({ tree with decls := tree.decls ++ [var] } : ScopeTree).declaredIn? scope name = none ↔
      tree.declaredIn? scope name = none ∧ var.name ≠ name := by
  simp only [declaredIn?, List.findIdx?_eq_none_iff, List.mem_append, List.mem_singleton]
  constructor
  · intro h
    refine ⟨fun v hm => h v (Or.inl hm), fun he => ?_⟩
    have hlast := h var (Or.inr rfl)
    simp [hv, he] at hlast
  · rintro ⟨h, hne⟩ v (hm | rfl)
    · exact h v hm
    · simp [hne]

namespace Facing

variable {n n' count scope scope' : Nat} {tree tree' tree₁ tree₁' : ScopeTree}
  {env env' env₁ env₁' : Env}

variable (h : Facing n n' count scope tree env scope' tree' env')

include h

theorem lookup {id : DeclId} (hl : env.lookup name = some id) :
    ∃ id', env'.lookup name = some id' ∧ Shifted n n' count id id' := by
  have hnames := h.names
  clear h
  induction hnames with
  | nil => simp at hl
  | @cons entry entry' env env' he _ ih =>
    obtain ⟨key, value⟩ := entry
    obtain ⟨key', value'⟩ := entry'
    obtain ⟨rfl : key = key', hid⟩ := he
    rw [List.lookup_cons] at hl ⊢
    by_cases hn : name = key
    · subst hn
      simp only [beq_self_eq_true, Option.some.injEq] at hl ⊢
      exact ⟨value', rfl, hl ▸ hid⟩
    · rw [beq_false_of_ne hn] at hl ⊢
      exact ih hl

theorem declare {ty : Ty} {kind : DeclKind} {span : Span} {id : Nat}
    (hd : tree.declareVariable scope name ty kind span = .ok (id, tree₁)) (hlt : id < n + count) :
    ∃ id' tree₁', tree'.declareVariable scope' name ty kind span = .ok (id', tree₁') ∧
      Shifted n n' count id id' ∧
      Facing n n' count scope tree₁ ((name, id) :: env) scope' tree₁' ((name, id') :: env') := by
  obtain ⟨_, hnone, hid, he⟩ := declareVariable_eq_ok.mp hd
  have hd' : tree'.declareVariable scope' name ty kind span = .ok (tree'.decls.length, _) :=
    declareVariable_eq_ok.mpr ⟨h.inside', (h.here name).mp hnone, rfl, rfl⟩
  obtain ⟨k, hk, hk'⟩ := h.length
  have hshift : Shifted n n' count id tree'.decls.length := ⟨k, by omega, hid.trans hk, hk'⟩
  refine ⟨_, _, hd', hshift, ?_⟩
  constructor
  case arena => exact arena_declare hd h.arena
  case arena' => exact arena_declare hd' h.arena'
  case inside => exact Nat.lt_of_lt_of_le h.inside (grown_declare hd).length_parents
  case inside' => exact Nat.lt_of_lt_of_le h.inside' (grown_declare hd').length_parents
  case sees => exact sees_declare hd h.arena h.sees
  case sees' => exact sees_declare hd' h.arena' h.sees'
  case names => exact .cons ⟨rfl, hshift⟩ h.names
  case here =>
    intro other
    rw [he, declaredIn?_declare rfl, declaredIn?_declare rfl, h.here other]
  case length => exact ⟨k + 1, by rw [he]; simp; omega, by simp; omega⟩
  case like =>
    intro j
    rw [he]
    rcases Nat.lt_trichotomy j k with hj | rfl | hj
    · have hlt₁ : n + j < tree.decls.length := by omega
      have hlt₂ : n' + j < tree'.decls.length := by omega
      simp only [List.getElem?_append_left hlt₁, List.getElem?_append_left hlt₂]
      exact h.like j
    · simp only [← hk, ← hk', List.getElem?_concat_length]
      exact .some ⟨rfl, rfl, rfl⟩
    · have hge₁ : tree.decls.length + 1 ≤ n + j := by omega
      have hge₂ : tree'.decls.length + 1 ≤ n' + j := by omega
      rw [List.getElem?_eq_none (by simpa using hge₁), List.getElem?_eq_none (by simpa using hge₂)]
      exact .none

theorem enter : Facing n n' count tree.parents.length (tree.newScope scope).2 env
    tree'.parents.length (tree'.newScope scope').2 env' := by
  have hfresh : ∀ {tree : ScopeTree} {scope : Nat} (name : String), tree.Arena →
      (tree.newScope scope).2.declaredIn? tree.parents.length name = none := by
    intro tree scope name ha
    rw [declaredIn?, List.findIdx?_eq_none_iff]
    intro var hm
    have hlt := ha.inside var hm
    have hne : tree.parents.length ≠ var.scope := by omega
    simp [hne.symm]
  constructor
  case arena => exact arena_newScope h.arena h.inside
  case arena' => exact arena_newScope h.arena' h.inside'
  case inside => simp [newScope]
  case inside' => simp [newScope]
  case sees => exact sees_newScope h.arena h.inside h.sees
  case sees' => exact sees_newScope h.arena' h.inside' h.sees'
  case names => exact h.names
  case here => exact fun name => by rw [hfresh name h.arena, hfresh name h.arena']
  case length => exact h.length
  case like => exact h.like

theorem leave
    (hin : Facing n n' count tree.parents.length tree₁ env₁ tree'.parents.length tree₁' env₁')
    (hg : Grown tree.parents.length tree tree₁) (hg' : Grown tree'.parents.length tree' tree₁') :
    Facing n n' count scope tree₁ env scope' tree₁' env' := by
  have hsame : ∀ {tree tree₁ : ScopeTree} {scope : Nat} (name : String),
      scope < tree.parents.length → Grown tree.parents.length tree tree₁ →
      tree₁.declaredIn? scope name = tree.declaredIn? scope name := by
    intro tree tree₁ scope name hlt hg
    obtain ⟨more, hm, hscope⟩ := hg.decls
    refine declaredIn?_append hm ?_
    rintro var hv ⟨rfl, _⟩
    rcases hscope var hv with he | he
    · exact Nat.lt_irrefl _ (he ▸ hlt)
    · exact Nat.not_le_of_lt hlt he
  constructor
  case arena => exact hin.arena
  case arena' => exact hin.arena'
  case inside => exact Nat.lt_of_lt_of_le h.inside hg.length_parents
  case inside' => exact Nat.lt_of_lt_of_le h.inside' hg'.length_parents
  case sees => exact h.sees.of_grown h.arena h.inside hg h.inside
  case sees' => exact h.sees'.of_grown h.arena' h.inside' hg' h.inside'
  case names => exact h.names
  case here =>
    intro name
    rw [hsame name h.inside hg, hsame name h.inside' hg']
    exact h.here name
  case length => exact hin.length
  case like => exact hin.like

theorem resolve {id : DeclId} (hl : tree.lookupVariable scope name = .ok (some id)) :
    ∃ id', tree'.lookupVariable scope' name = .ok (some id') ∧ Shifted n n' count id id' := by
  rw [h.sees name, Except.ok.injEq] at hl
  obtain ⟨id', hl', hid⟩ := h.lookup hl
  exact ⟨id', by rw [h.sees' name, hl'], hid⟩

end Facing

/-! ## Expressions -/

section

variable {n n' count scope scope' : Nat} {tree tree' : ScopeTree} {env env' : Env}

mutual
theorem Expr.bind_alike (h : Facing n n' count scope tree env scope' tree' env') :
    ∀ (expr expr₁ : Expr) (tree₁ : ScopeTree), expr.bind scope tree = .done expr₁ tree₁ →
    ∃ other₁, expr.bind scope' tree' = .done other₁ tree' ∧
      expr₁.Alike (Shifted n n' count) other₁
  | .lit .., _, _, hb => by
    simp only [Expr.bind, pure_eq_done] at hb
    obtain ⟨rfl, _⟩ := hb
    exact ⟨_, rfl, rfl⟩
  | .var .., _, _, hb => by
    simp only [Expr.bind, bind_eq_done, scopes_eq_done, ofExcept_eq_done, pure_eq_done,
      resolveVariable_eq_ok] at hb ⊢
    obtain ⟨found, left, ⟨hfound, _⟩, id, _, ⟨hl, _⟩, rfl, _⟩ := hb
    rw [hfound] at hl
    obtain ⟨id', hl', hid⟩ := h.resolve hl
    exact ⟨_, ⟨tree', tree', ⟨rfl, rfl⟩, id', tree', ⟨hl', rfl⟩, rfl, rfl⟩, some id', .some hid, rfl⟩
  | .call _ args _ _, _, _, hb => by
    simp only [Expr.bind, bind_eq_done, within_eq_done, pure_eq_done] at hb ⊢
    obtain ⟨args₁, _, hargs, rfl, _⟩ := hb
    obtain ⟨others₁, hargs', ha⟩ := bindAll_alike h args args₁ _ hargs
    exact ⟨_, ⟨others₁, tree', hargs', rfl, rfl⟩, others₁, ha, rfl⟩
termination_by structural expr => expr
theorem bindAll_alike (h : Facing n n' count scope tree env scope' tree' env') :
    ∀ (exprs exprs₁ : List Expr) (tree₁ : ScopeTree), bindAll scope exprs tree = .done exprs₁ tree₁ →
    ∃ others₁, bindAll scope' exprs tree' = .done others₁ tree' ∧
      AllAlike (Shifted n n' count) exprs₁ others₁
  | [], _, _, hb => by
    simp only [bindAll, pure_eq_done] at hb
    obtain ⟨rfl, _⟩ := hb
    exact ⟨_, rfl, rfl⟩
  | expr :: exprs, exprs₁, _, hb => by
    simp only [bindAll, bind_eq_done, within_eq_done, pure_eq_done] at hb ⊢
    obtain ⟨expr₁, tree₂, he, exprs₁, _, hes, rfl, _⟩ := hb
    rw [(Expr.bind_spec h.sees expr expr₁ tree₂ he).1] at hes
    obtain ⟨other₁, he', ho⟩ := Expr.bind_alike h expr expr₁ _ he
    obtain ⟨others₁, hes', hos⟩ := bindAll_alike h exprs exprs₁ _ hes
    exact ⟨_, ⟨other₁, tree', he', others₁, tree', hes', rfl, rfl⟩, other₁, others₁, ho, hos, rfl⟩
termination_by structural exprs => exprs
end

end

/-! ## Statements -/

section

variable {n n' count : Nat}

mutual
theorem Stmt.bind_alike : ∀ (stmt stmt₁ : Stmt) {scope scope' : Nat} {tree tree' tree₁ : ScopeTree}
    {env env' : Env}, Facing n n' count scope tree env scope' tree' env' →
    stmt.bind scope tree = .done stmt₁ tree₁ → tree₁.decls.length ≤ n + count →
    ∃ other₁ tree₁', stmt.bind scope' tree' = .done other₁ tree₁' ∧
      stmt₁.Alike (Shifted n n' count) other₁ ∧
      Facing n n' count scope tree₁ (stmt₁.extend env) scope' tree₁' (other₁.extend env')
  | .decl _ _ value _ _, _, _, _, _, tree', _, _, _, h, hb, hle => by
    simp only [Stmt.bind, bind_eq_done, within_eq_done, ofExcept_eq_done, declareHere_eq_done,
      pure_eq_done] at hb ⊢
    obtain ⟨value₁, _, hv, ty, _, ⟨ht, rfl⟩, id, _, hd, rfl, rfl⟩ := hb
    obtain ⟨rfl, _⟩ := Expr.bind_spec h.sees value value₁ _ hv
    obtain ⟨other₁, hv', ho⟩ := Expr.bind_alike h value value₁ _ hv
    have hlt : id < n + count := by
      obtain ⟨_, _, hid, he⟩ := declareVariable_eq_ok.mp hd
      rw [he] at hle
      simp only [List.length_append, List.length_singleton] at hle
      exact hid ▸ hle
    obtain ⟨id', tree₁', hd', hid, h₁⟩ := h.declare hd hlt
    exact ⟨_, tree₁', ⟨other₁, tree', hv', ty, tree', ⟨ht, rfl⟩, id', tree₁', hd', rfl, rfl⟩,
      ⟨other₁, some id', ho, .some hid, rfl⟩, h₁⟩
  | .assign _ value _ _, _, _, _, _, tree', _, _, _, h, hb, _ => by
    simp only [Stmt.bind, bind_eq_done, within_eq_done, scopes_eq_done, ofExcept_eq_done,
      pure_eq_done, resolveVariable_eq_ok] at hb ⊢
    obtain ⟨value₁, _, hv, _, _, ⟨rfl, rfl⟩, id, _, ⟨hl, rfl⟩, rfl, rfl⟩ := hb
    obtain ⟨rfl, _⟩ := Expr.bind_spec h.sees value value₁ _ hv
    obtain ⟨other₁, hv', ho⟩ := Expr.bind_alike h value value₁ _ hv
    obtain ⟨id', hl', hid⟩ := h.resolve hl
    exact ⟨_, tree', ⟨other₁, tree', hv', tree', tree', ⟨rfl, rfl⟩, id', tree', ⟨hl', rfl⟩, rfl, rfl⟩,
      ⟨other₁, some id', ho, .some hid, rfl⟩, h⟩
  | .branch conds blocks _, _, _, _, _, tree', _, _, _, h, hb, hle => by
    unfold Stmt.bind at hb ⊢
    by_cases hf : branchShapeFits conds.length blocks.length = true
    · simp only [hf, if_true, bind_eq_done, within_eq_done, pure_eq_done] at hb ⊢
      obtain ⟨conds₁, _, hcs, blocks₁, _, hbs, rfl, rfl⟩ := hb
      obtain ⟨rfl, _⟩ := bindAll_spec h.sees conds conds₁ _ hcs
      obtain ⟨conds₁', hcs', hc⟩ := bindAll_alike h conds conds₁ _ hcs
      obtain ⟨blocks₁', tree₁', hbs', hbl, h₁⟩ := bindBlocks_alike blocks blocks₁ h hbs hle
      exact ⟨_, tree₁', ⟨conds₁', tree', hcs', blocks₁', tree₁', hbs', rfl, rfl⟩,
        ⟨conds₁', blocks₁', hc, hbl, rfl⟩, h₁⟩
    · simp only [hf, Bool.false_eq_true, if_false, stop_eq_done] at hb
  | .forLoop _ lo hi body _ _, _, _, _, _, tree', _, _, _, h, hb, hle => by
    have hwhole := (Stmt.bind_spec _ _ h.arena h.inside h.sees hb).1.length
    simp only [Stmt.bind, bind_eq_done, within_eq_done, openScope_eq_done, declareHere_eq_done,
      pure_eq_done] at hb ⊢
    obtain ⟨lo₁, _, hl, hi₁, _, hh, inner, tree₂, ⟨rfl, rfl⟩, id, tree₃, hd, body₁, _, hbody, rfl,
      rfl⟩ := hb
    obtain ⟨rfl, _⟩ := Expr.bind_spec h.sees lo lo₁ _ hl
    obtain ⟨rfl, _⟩ := Expr.bind_spec h.sees hi hi₁ _ hh
    obtain ⟨lo₁', hl', hlo⟩ := Expr.bind_alike h lo lo₁ _ hl
    obtain ⟨hi₁', hh', hhi⟩ := Expr.bind_alike h hi hi₁ _ hh
    have hlt : id < n + count := by
      obtain ⟨_, _, hid, _⟩ := declareVariable_eq_ok.mp hd
      simp only [Stmt.sites, List.length_cons] at hwhole
      rw [hid]
      exact Nat.lt_of_lt_of_le (Nat.lt_add_of_pos_right (Nat.succ_pos _)) (hwhole ▸ hle)
    obtain ⟨id', tree₃', hd', hid, h₃⟩ := h.enter.declare hd hlt
    obtain ⟨body₁', tree₁', hbody', hbo, h₁⟩ := Block.bind_alike body body₁ h₃ hbody hle
    have hg := (Block.bind_spec body body₁ h₃.arena h₃.inside h₃.sees hbody).1.grown
    have hg' := (Block.bind_spec body body₁' h₃.arena' h₃.inside' h₃.sees' hbody').1.grown
    refine ⟨_, tree₁', ⟨lo₁', tree', hl', hi₁', tree', hh', _, _, ⟨rfl, rfl⟩, id', tree₃', hd', body₁',
      tree₁', hbody', rfl, rfl⟩, ⟨lo₁', hi₁', body₁', some id', hlo, hhi, hbo, .some hid, rfl⟩, ?_⟩
    refine h.leave h₁ ?_ ?_
    · exact ((grown_newScope _).trans (grown_declare hd) (Or.inl rfl)).trans hg (Or.inl rfl)
    · exact ((grown_newScope _).trans (grown_declare hd') (Or.inl rfl)).trans hg' (Or.inl rfl)
  | .whileLoop cond body _, _, _, _, _, tree', _, _, _, h, hb, hle => by
    simp only [Stmt.bind, bind_eq_done, within_eq_done, pure_eq_done] at hb ⊢
    obtain ⟨cond₁, _, hc, body₁, _, hbody, rfl, rfl⟩ := hb
    obtain ⟨rfl, _⟩ := Expr.bind_spec h.sees cond cond₁ _ hc
    obtain ⟨cond₁', hc', hco⟩ := Expr.bind_alike h cond cond₁ _ hc
    obtain ⟨body₁', tree₁', hbody', hbo, h₁⟩ := Block.bind_alike body body₁ h hbody hle
    exact ⟨_, tree₁', ⟨cond₁', tree', hc', body₁', tree₁', hbody', rfl, rfl⟩,
      ⟨cond₁', body₁', hco, hbo, rfl⟩, h₁⟩
  | .call value, _, _, _, _, tree', _, _, _, h, hb, _ => by
    simp only [Stmt.bind, bind_eq_done, within_eq_done, pure_eq_done] at hb ⊢
    obtain ⟨value₁, _, hv, rfl, rfl⟩ := hb
    obtain ⟨rfl, _⟩ := Expr.bind_spec h.sees value value₁ _ hv
    obtain ⟨other₁, hv', ho⟩ := Expr.bind_alike h value value₁ _ hv
    exact ⟨_, tree', ⟨other₁, tree', hv', rfl, rfl⟩, ⟨other₁, ho, rfl⟩, h⟩
termination_by structural stmt => stmt
theorem Block.bind_alike : ∀ (block block₁ : Block) {scope scope' : Nat} {own own' : Option ScopeId}
    {tree tree' tree₁ : ScopeTree} {env env' : Env},
    Facing n n' count scope tree env scope' tree' env' →
    block.bind scope own tree = .done block₁ tree₁ → tree₁.decls.length ≤ n + count →
    ∃ other₁ tree₁', block.bind scope' own' tree' = .done other₁ tree₁' ∧
      block₁.Alike (Shifted n n' count) other₁ ∧
      Facing n n' count scope tree₁ (block₁.extend env) scope' tree₁' (other₁.extend env')
  | ⟨stmts, ret, _, _, _⟩, _, _, _, _, own', _, _, _, _, _, h, hb, hle => by
    simp only [Block.bind, bind_eq_done, within_eq_done] at hb ⊢
    obtain ⟨stmts₁, tree₂, hst, hb⟩ := hb
    cases ret with
    | none =>
      obtain ⟨rfl, rfl⟩ := pure_eq_done.mp hb
      obtain ⟨stmts₁', tree₁', hst', hs, h₁⟩ := bindStmts_alike stmts stmts₁ h hst hle
      exact ⟨_, tree₁', ⟨stmts₁', tree₁', hst', rfl⟩, ⟨stmts₁', none, own', hs, .none, rfl⟩, h₁⟩
    | some ret =>
      obtain ⟨value, retSpan⟩ := ret
      have hsees := (bindStmts_spec stmts stmts₁ h.arena h.inside h.sees hst).1.sees
      simp only [bind_eq_done, within_eq_done, pure_eq_done] at hb ⊢
      obtain ⟨value₁, _, hv, rfl, rfl⟩ := hb
      obtain ⟨rfl, _⟩ := Expr.bind_spec hsees value value₁ _ hv
      obtain ⟨stmts₁', tree₁', hst', hs, h₁⟩ := bindStmts_alike stmts stmts₁ h hst hle
      obtain ⟨value₁', hv', hva⟩ := Expr.bind_alike h₁ value value₁ _ hv
      exact ⟨_, tree₁', ⟨stmts₁', tree₁', hst', value₁', tree₁', hv', rfl, rfl⟩,
        ⟨stmts₁', some ⟨value₁', retSpan⟩, own', hs, .some ⟨hva, rfl⟩, rfl⟩, h₁⟩
termination_by structural block => block
theorem bindStmts_alike : ∀ (stmts stmts₁ : List Stmt) {scope scope' : Nat}
    {tree tree' tree₁ : ScopeTree} {env env' : Env},
    Facing n n' count scope tree env scope' tree' env' →
    bindStmts scope stmts tree = .done stmts₁ tree₁ → tree₁.decls.length ≤ n + count →
    ∃ others₁ tree₁', bindStmts scope' stmts tree' = .done others₁ tree₁' ∧
      StmtsAlike (Shifted n n' count) stmts₁ others₁ ∧
      Facing n n' count scope tree₁ (extendStmts env stmts₁) scope' tree₁'
        (extendStmts env' others₁)
  | [], _, _, _, _, tree', _, _, _, h, hb, _ => by
    simp only [bindStmts, pure_eq_done] at hb ⊢
    obtain ⟨rfl, rfl⟩ := hb
    exact ⟨[], tree', ⟨rfl, rfl⟩, rfl, h⟩
  | stmt :: stmts, stmts₁, _, _, _, _, _, _, _, h, hb, hle => by
    simp only [bindStmts, bind_eq_done, within_eq_done, pure_eq_done] at hb ⊢
    obtain ⟨stmt₁, tree₂, hst, stmts₁, _, hsts, rfl, rfl⟩ := hb
    have hmid := (Stmt.bind_spec stmt stmt₁ h.arena h.inside h.sees hst).1
    have hrest := (bindStmts_spec stmts stmts₁ hmid.arena (hmid.inside h.inside) hmid.sees hsts).1
    have hle₂ : tree₂.decls.length ≤ n + count := by
      have hlen := hrest.length
      omega
    obtain ⟨other₁, tree₂', hst', hs, h₂⟩ := Stmt.bind_alike stmt stmt₁ h hst hle₂
    obtain ⟨others₁, tree₁', hsts', hss, h₁⟩ := bindStmts_alike stmts stmts₁ h₂ hsts hle
    exact ⟨_, tree₁', ⟨other₁, tree₂', hst', others₁, tree₁', hsts', rfl, rfl⟩,
      ⟨other₁, others₁, hs, hss, rfl⟩, h₁⟩
termination_by structural stmts => stmts
theorem bindBlocks_alike : ∀ (blocks blocks₁ : List Block) {scope scope' : Nat}
    {tree tree' tree₁ : ScopeTree} {env env' : Env},
    Facing n n' count scope tree env scope' tree' env' →
    bindBlocks scope blocks tree = .done blocks₁ tree₁ → tree₁.decls.length ≤ n + count →
    ∃ others₁ tree₁', bindBlocks scope' blocks tree' = .done others₁ tree₁' ∧
      BlocksAlike (Shifted n n' count) blocks₁ others₁ ∧
      Facing n n' count scope tree₁ (extendBlocks env blocks₁) scope' tree₁'
        (extendBlocks env' others₁)
  | [], _, _, _, _, tree', _, _, _, h, hb, _ => by
    simp only [bindBlocks, pure_eq_done] at hb ⊢
    obtain ⟨rfl, rfl⟩ := hb
    exact ⟨[], tree', ⟨rfl, rfl⟩, rfl, h⟩
  | block :: blocks, blocks₁, _, _, _, _, _, _, _, h, hb, hle => by
    simp only [bindBlocks, bind_eq_done, within_eq_done, pure_eq_done] at hb ⊢
    obtain ⟨block₁, tree₂, hbl, blocks₁, _, hbls, rfl, rfl⟩ := hb
    have hmid := (Block.bind_spec block block₁ h.arena h.inside h.sees hbl).1
    have hrest := (bindBlocks_spec blocks blocks₁ hmid.arena (hmid.inside h.inside) hmid.sees hbls).1
    have hle₂ : tree₂.decls.length ≤ n + count := by
      have hlen := hrest.length
      omega
    obtain ⟨other₁, tree₂', hbl', ho, h₂⟩ := Block.bind_alike block block₁ h hbl hle₂
    obtain ⟨others₁, tree₁', hbls', hos, h₁⟩ := bindBlocks_alike blocks blocks₁ h₂ hbls hle
    exact ⟨_, tree₁', ⟨other₁, tree₂', hbl', others₁, tree₁', hbls', rfl, rfl⟩,
      ⟨other₁, others₁, ho, hos, rfl⟩, h₁⟩
termination_by structural blocks => blocks
end

/-! ## Functions -/

theorem bindParams_alike : ∀ (params params₁ : List Param) {scope scope' : Nat}
    {tree tree' tree₁ : ScopeTree} {env env' : Env},
    Facing n n' count scope tree env scope' tree' env' →
    bindParams scope params tree = .done params₁ tree₁ → tree₁.decls.length ≤ n + count →
    ∃ others₁ tree₁', bindParams scope' params tree' = .done others₁ tree₁' ∧
      List.Forall₂ (Param.Alike (Shifted n n' count)) params₁ others₁ ∧
      Facing n n' count scope tree₁ (extendParams env params₁) scope' tree₁'
        (extendParams env' others₁)
  | [], _, _, _, _, tree', _, _, _, h, hb, _ => by
    simp only [bindParams, pure_eq_done] at hb ⊢
    obtain ⟨rfl, rfl⟩ := hb
    exact ⟨[], tree', ⟨rfl, rfl⟩, .nil, h⟩
  | _ :: params, params₁, _, _, _, tree', _, _, _, h, hb, hle => by
    have hwhole := (bindParams_spec _ _ h.arena h.sees hb).1.length
    simp only [bindParams, bind_eq_done, ofExcept_eq_done, declareHere_eq_done, within_eq_done,
      pure_eq_done] at hb ⊢
    obtain ⟨ty, _, ⟨ht, rfl⟩, id, tree₂, hd, params₁, _, hps, rfl, rfl⟩ := hb
    have hlt : id < n + count := by
      obtain ⟨_, _, hid, _⟩ := declareVariable_eq_ok.mp hd
      simp only [List.map_cons, List.length_cons] at hwhole
      rw [hid]
      exact Nat.lt_of_lt_of_le (Nat.lt_add_of_pos_right (Nat.succ_pos _)) (hwhole ▸ hle)
    obtain ⟨id', tree₂', hd', hid, h₂⟩ := h.declare hd hlt
    obtain ⟨others₁, tree₁', hps', hos, h₁⟩ := bindParams_alike params params₁ h₂ hps hle
    exact ⟨_, tree₁', ⟨ty, tree', ⟨ht, rfl⟩, id', tree₂', hd', others₁, tree₁', hps', rfl, rfl⟩,
      .cons ⟨.some hid, rfl⟩ hos, h₁⟩

end

theorem Facing.start {scope scope' : Nat} {tree' : ScopeTree} (count : Nat) (ha : tree.Arena)
    (hlt : scope < tree.parents.length) (hs : tree.Sees scope []) (ha' : tree'.Arena)
    (hlt' : scope' < tree'.parents.length) (hs' : tree'.Sees scope' []) :
    Facing tree.decls.length tree'.decls.length count scope tree [] scope' tree' [] := by
  have hnone : ∀ {tree : ScopeTree} {scope : Nat} (name : String), tree.Arena →
      scope < tree.parents.length → tree.Sees scope [] → tree.declaredIn? scope name = none := by
    intro tree scope name ha hlt hs
    have hl := hs name
    rw [lookupVariable_eq ha (List.getElem?_eq_getElem hlt)] at hl
    cases hd : tree.declaredIn? scope name with
    | none => rfl
    | some id =>
      rw [hd] at hl
      cases hl
  constructor
  case arena => exact ha
  case arena' => exact ha'
  case inside => exact hlt
  case inside' => exact hlt'
  case sees => exact hs
  case sees' => exact hs'
  case names => exact .nil
  case here => exact fun name => by rw [hnone name ha hlt hs, hnone name ha' hlt' hs']
  case length => exact ⟨0, rfl, rfl⟩
  case like =>
    intro k
    rw [List.getElem?_eq_none (Nat.le_add_right _ k), List.getElem?_eq_none (Nat.le_add_right _ k)]
    exact .none

theorem FnDef.bind_alike {unitScope : Nat} {fn fn₁ : FnDef} {tree' tree₁ : ScopeTree}
    (ha : tree.Arena) (hlt : unitScope < tree.parents.length) (hs : tree.Sees unitScope [])
    (ha' : tree'.Arena) (hlt' : unitScope < tree'.parents.length) (hs' : tree'.Sees unitScope [])
    (hb : fn.bind unitScope tree = .done fn₁ tree₁) :
    ∃ other₁ tree₁', fn.bind unitScope tree' = .done other₁ tree₁' ∧
      fn₁.Alike (Shifted tree.decls.length tree'.decls.length fn₁.sites.length) other₁ ∧
      LikeFrom tree.decls.length tree'.decls.length tree₁ tree₁' := by
  have hlen := (FnDef.bind_spec ha hlt hs hb).1.length
  simp only [FnDef.bind, bind_eq_done, openScope_eq_done, within_eq_done, pure_eq_done] at hb ⊢
  obtain ⟨scope, tree₂, ⟨rfl, rfl⟩, params₁, tree₃, hps, body₁, _, hbody, rfl, rfl⟩ := hb
  have h := (Facing.start (FnDef.sites { fn with params := params₁, body := body₁ }).length ha hlt hs
    ha' hlt' hs').enter
  have hps₁ := (bindParams_spec _ _ h.arena h.sees hps).1
  have hle₃ : tree₃.decls.length ≤ tree.decls.length +
      (FnDef.sites { fn with params := params₁, body := body₁ }).length := by
    have hrest := (Block.bind_spec _ _ hps₁.arena (hps₁.inside h.inside) hps₁.sees hbody).1.length
    omega
  obtain ⟨params₁', tree₃', hps', hpa, h₃⟩ := bindParams_alike _ _ h hps hle₃
  obtain ⟨body₁', tree₁', hbody', hba, h₁⟩ :=
    Block.bind_alike fn.body body₁ h₃ hbody (Nat.le_of_eq hlen)
  exact ⟨_, tree₁', ⟨_, _, ⟨rfl, rfl⟩, params₁', tree₃', hps', body₁', tree₁', hbody', rfl, rfl⟩,
    ⟨hpa, hba, rfl⟩, h₁.like⟩

end ScriptLang
