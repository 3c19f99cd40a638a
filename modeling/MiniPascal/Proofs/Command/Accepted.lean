import MiniPascal.Proofs.Command.Arguments

/-! Which arguments are accepted: those that say things one after another, a file among them, and
none but the requests for more messages twice. -/
namespace MiniPascal.Command
namespace Progress

section
variable {p q : Progress} {a name value : String} {as : List String} {is : List Item}

end

end Progress

end MiniPascal.Command
