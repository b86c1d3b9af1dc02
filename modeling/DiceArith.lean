import DiceArith.Main
import DiceArith.Proofs.DiceOperands
import DiceArith.Proofs.Accounting
import DiceArith.Proofs.ErrorPlaces
import DiceArith.Proofs.SegmentGrammar
import DiceArith.Proofs.ConsoleAnswers
import DiceArith.Proofs.Abridgement
import DiceArith.Proofs.LongestLexemes
import DiceArith.Proofs.Contraction
import DiceArith.Proofs.DicelessEvaluation
import DiceArith.Proofs.Refusal
import DiceArith.Proofs.ExpandedSize
import DiceArith.Proofs.WrittenValues
import DiceArith.Proofs.Guards
