import ClassScript.Main
import ClassScript.Parse.Speculation
import ClassScript.Proofs.Access
import ClassScript.Proofs.Annotations
import ClassScript.Proofs.Arguments
import ClassScript.Proofs.Balance
import ClassScript.Proofs.BaseLiterals
import ClassScript.Proofs.Callers
import ClassScript.Proofs.Covariance
import ClassScript.Proofs.DepthLimit
import ClassScript.Proofs.EditScripts
import ClassScript.Proofs.Getters
import ClassScript.Proofs.Hygiene
import ClassScript.Proofs.Inheritance
import ClassScript.Proofs.Interpolation
import ClassScript.Proofs.Layout
import ClassScript.Proofs.LeadingPoints
import ClassScript.Proofs.Overloading
import ClassScript.Proofs.Ownership
import ClassScript.Proofs.PlainLiterals
import ClassScript.Proofs.Pointing
import ClassScript.Proofs.Printing
import ClassScript.Proofs.Progress
import ClassScript.Proofs.Selection
import ClassScript.Proofs.SeparatorGrammar
import ClassScript.Proofs.StringLiterals
import ClassScript.Proofs.Subclassing
import ClassScript.Proofs.Sweeping
import ClassScript.Proofs.Undoing
import ClassScript.Proofs.Verdicts
import ClassScript.Run.Toolkit
import ClassScript.Store.Outline
