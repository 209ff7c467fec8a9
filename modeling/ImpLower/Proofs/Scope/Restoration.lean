import ImpLower.Proofs.Lower.Confinement
import ImpLower.Proofs.Typing.Faults

/-!
# Scopes are restored

Checking and lowering leave every frame they opened on each way out. A statement, checked or lowered,
with success or not, leaves behind at most the one name it declares, and a declaration at the top
level at most its own; the function around it is the same again.
-/

namespace ImpLower

theorem Scope.inner_eq_nil {α : Type} {s : Scope α} (top : s.depth = 1) : s.inner = [] := by
  simpa [Scope.depth] using top

/-- On every path out of a statement or a declaration, in checking and in lowering into any emitter,
the scope is as before up to the declared name, and so is the function around. The exits that close
the frames of `withFrame` never fail. -/
theorem scopes_restored_on_every_path :
    (∀ (st : Source.Stmt) (s t : Checker), ((Typing.checkStmt st).exec s).2 = t →
      s.scope.Gains st.declares t.scope ∧ t.function = s.function) ∧
    (∀ (d : Source.Decl) (s t : Checker), s.scope.depth = 1 →
      ((Typing.checkDecl d).exec s).2 = t →
      s.scope.Gains (some d.name) t.scope ∧ t.function = s.function) ∧
    (∀ {β : Type} (body : Check β) (s : Checker),
      (body.exec { s with scope := s.scope.enter }).2.scope.exitTo s.scope.depth =
        .ok ((withFrame body).exec s).2.scope) ∧
    ∀ {σ V S B F M : Type} [Emitter σ V S B F M],
      (∀ (st : Typed.Stmt) (s t : Lowering σ V S F), ((Lower.lowerStmt st).exec s).2 = t →
        s.scope.Gains st.declares t.scope ∧ t.function = s.function) ∧
      (∀ (d : Typed.Decl) (s t : Lowering σ V S F), s.scope.depth = 1 →
        ((Lower.lowerDecl d).exec s).2 = t →
        s.scope.Gains (some d.name) t.scope ∧ t.function = s.function) ∧
      ∀ {β : Type} (body : Lower σ V S F β) (s : Lowering σ V S F),
        (body.exec { s with scope := s.scope.enter }).2.scope.exitTo s.scope.depth =
          .ok ((withFrame body).exec s).2.scope := by
  refine ⟨?_, ?_, fun body s => exitTo_withFrame body s, ?_⟩
  · rintro st s t rfl
    have h := Typing.checkStmt_behaves st
    exact ⟨h.scope s, h.function s⟩
  · rintro d s t top rfl
    have h := Typing.checkDecl_behaves d fun _ _ h => h
    exact ⟨h.scope s (Scope.inner_eq_nil top), h.function s⟩
  · intro σ V S B F M _
    refine ⟨?_, ?_, fun body s => exitTo_withFrame body s⟩
    · rintro st s t rfl
      have h := Lower.lowerStmt_within st s
      exact ⟨h.scope, h.function⟩
    · rintro d s t top rfl
      have h := Lower.lowerDecl_within d s
      exact ⟨h.scope (Scope.inner_eq_nil top), h.function⟩

/-- `void spill() { int a; { int b; return c; } }`, where `c` is not declared. -/
def spill : Source.Decl :=
  .function
    { result := .void, name := "spill", parameters := []
      body := [.declare { ty := .int, name := "a" },
        .block [.declare { ty := .int, name := "b" },
          .ret (some (.var "c" []))]] }

/-- The function stays declared, and nothing of its body does. -/
theorem spill_restored :
    ((Typing.checkDecl spill).exec {}).1.isOk = false ∧ ({} : Checker).scope.depth = 1 ∧
      ({} : Checker).scope.Gains (some "spill") ((Typing.checkDecl spill).exec {}).2.scope :=
  ⟨by decide +kernel, rfl, (scopes_restored_on_every_path.2.1 spill {} _ rfl rfl).1⟩

end ImpLower
