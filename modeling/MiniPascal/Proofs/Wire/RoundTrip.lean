import MiniPascal.Command.Answer
import MiniPascal.Proofs.Reading.Constants

/-! Programs survive their JSON text. -/
namespace MiniPascal.Program

variable {p : Program}

end MiniPascal.Program
