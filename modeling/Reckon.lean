import Reckon.Batch
import Reckon.Folder
import Reckon.Grammar.Small
import Reckon.Main
import Reckon.Program
import Reckon.Session
import Reckon.Proofs.Batch.Streams
import Reckon.Proofs.Evaluation.Agreement
import Reckon.Proofs.Evaluation.Limits
import Reckon.Proofs.Evaluation.Meaning
import Reckon.Proofs.Evaluation.Refusals
import Reckon.Proofs.Evaluation.Substitution
import Reckon.Proofs.Production.Accounts
import Reckon.Proofs.Session.Accounts
import Reckon.Proofs.Production.Displaced
import Reckon.Proofs.Production.PowerChain
import Reckon.Proofs.Production.Straight
import Reckon.Proofs.Reading.Digits
import Reckon.Proofs.Value.Power
import Reckon.Proofs.Evaluation.Terminators
import Reckon.Proofs.Batch.Printed
import Reckon.Proofs.Batch.Readback
import Reckon.Proofs.Batch.Records
import Reckon.Proofs.Evaluation.Arithmetic
import Reckon.Proofs.Evaluation.Transcript
import Reckon.Proofs.Production.Progress
import Reckon.Proofs.Production.Endings
import Reckon.Proofs.Production.Progress
