import Worksheet.Main
import Worksheet.Proofs.Atomicity
import Worksheet.Proofs.Calculation
import Worksheet.Proofs.Convention
import Worksheet.Proofs.Descent
import Worksheet.Proofs.DocumentCode
import Worksheet.Proofs.EditOrder
import Worksheet.Proofs.EvaluateCommand
import Worksheet.Proofs.Faults
import Worksheet.Proofs.FileEdits
import Worksheet.Proofs.OneEdit
import Worksheet.Proofs.References
import Worksheet.Proofs.Repainting
import Worksheet.Proofs.SameTexts
import Worksheet.Proofs.Scans
import Worksheet.Proofs.Spelling
import Worksheet.Proofs.Tokens
