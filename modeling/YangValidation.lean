import YangValidation.Schema
import YangValidation.Data
import YangValidation.TreeOps
import YangValidation.Filter.Compare
import YangValidation.Filter.Merge
import YangValidation.Content
import YangValidation.Walks
import YangValidation.Choice
import YangValidation.Context
import YangValidation.Order
import YangValidation.Pass
import YangValidation.Checks
import YangValidation.Queue
import YangValidation.Frame
import YangValidation.Uniqueness
import YangValidation.Valid
import YangValidation.Accept
import YangValidation.Outcome
import YangValidation.Filter.Reports
import YangValidation.Requests
import YangValidation.Safety
